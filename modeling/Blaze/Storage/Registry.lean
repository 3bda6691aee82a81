import Blaze.Lib.Bytes
import Blaze.Storage.Base

/-!
# Encodings of the registry

A registry run is written either with a fixed stride or as delta-varint records in
offset-indexed blocks.  The blocked layout is shared with the member index, so the
block writer is stated for any ascending runs of keys with values.
-/

namespace Blaze

open Bytes

/-- Default target block size. -/
def blockBytes : Nat := 512

/-- Which on-disk encoding a writer emits for the registry. -/
inductive RegistryEncoding where
  | flat
  | blocked
  deriving DecidableEq, Repr

/-- The record being accumulated, the block being filled with its framing, and the
closed blocks with their start offsets. -/
structure BlockWriter where
  key : Option Nat
  values : List Nat
  body : List UInt8
  records : Nat
  firstKey : Nat
  prevKey : Nat
  blocks : List UInt8
  offsets : List Nat
  blockBytes : Nat

namespace BlockWriter

def new (blockBytes : Nat) : BlockWriter :=
  ⟨none, [], [], 0, 0, 0, [], [], blockBytes⟩

def closeBlock (w : BlockWriter) : BlockWriter :=
  if w.records = 0 then
    w
  else
    { w with
      offsets := w.offsets ++ [w.blocks.length]
      blocks := w.blocks ++ putLe 8 w.firstKey ++ putLe 4 w.records ++ w.body
      body := []
      records := 0 }

/-- A value count, then each value as the gap from the one before it. -/
def record (values : List Nat) : List UInt8 :=
  putVarint values.length ++
    (values.foldl (fun out value => (out.1 ++ putVarint (value - out.2), value))
      (([] : List UInt8), 0)).1

/-- Append the buffered record to the open block, starting a new block when it
would not fit.  The first record of a block has no gap: the block header carries
its key.  The record count of a block has 32 bits and wraps around. -/
def closeRecord (w : BlockWriter) : BlockWriter :=
  match w.key with
  | none => w
  | some key =>
      let w := { w with key := none }
      let encoded := record w.values
      let opened (w : BlockWriter) : BlockWriter :=
        { w with firstKey := key, prevKey := key, body := encoded, records := 1 }
      if w.records > 0 then
        let gap := putVarint (key - w.prevKey)
        if w.body.length + gap.length + encoded.length ≤ w.blockBytes then
          { w with
            body := w.body ++ gap ++ encoded
            records := (w.records + 1) % 2 ^ 32
            prevKey := key }
        else
          opened w.closeBlock
      else
        opened w

/-- Add a value to the record of a key, which becomes the open record. -/
def push (w : BlockWriter) (key value : Nat) : BlockWriter :=
  if w.key = some key then
    { w with values := w.values ++ [value] }
  else
    { w.closeRecord with key := some key, values := [value] }

/-- The entry count, the block count, the block offsets and the blocks. -/
def payload (w : BlockWriter) (entries : Nat) : List UInt8 :=
  let w := w.closeRecord.closeBlock
  putLe 8 entries ++ putLe 8 w.offsets.length ++ w.offsets.flatMap (putLe 8) ++
    putLe 8 w.blocks.length ++ w.blocks

end BlockWriter

/-- The fixed-stride registry run. -/
def registryFlatBlobType : String := "blaze-registry-v1"

/-- The registry run in delta-varint blocks. -/
def registryBlockedBlobType : String := "blaze-registry-v2"

/-- Streaming registry encoder; entries arrive in ascending order. -/
structure RegistryWriter where
  encoding : RegistryEncoding
  entries : Nat
  flat : List UInt8
  blocked : BlockWriter

namespace RegistryWriter

def withBlockSize (encoding : RegistryEncoding) (blockBytes : Nat) : RegistryWriter :=
  ⟨encoding, 0, [], BlockWriter.new blockBytes⟩

def new (encoding : RegistryEncoding) : RegistryWriter :=
  withBlockSize encoding blockBytes

/-- The blocked form drops a repeated entry; the flat form writes it again. -/
def push (w : RegistryWriter) (root : NodeId) (scope : ScopeId) : RegistryWriter :=
  match w.encoding with
  | .flat =>
      { w with flat := w.flat ++ putLe 8 root ++ putLe 4 scope, entries := w.entries + 1 }
  | .blocked =>
      if w.blocked.key = some root ∧ w.blocked.values.getLast? = some scope then
        w
      else
        { w with blocked := w.blocked.push root scope, entries := w.entries + 1 }

/-- The blob type and the payload; nothing when nothing was pushed. -/
def finish (w : RegistryWriter) : Option (String × List UInt8) :=
  if w.entries = 0 then
    none
  else
    match w.encoding with
    | .flat => some (registryFlatBlobType, putLe 8 w.entries ++ w.flat)
    | .blocked => some (registryBlockedBlobType, w.blocked.payload w.entries)

end RegistryWriter

end Blaze
