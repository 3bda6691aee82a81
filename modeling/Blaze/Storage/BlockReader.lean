import Blaze.Lib.SortedSearch
import Blaze.Storage.BlockLayout

/-!
# Readers of offset-indexed blocks

The registry and the member index in delta-varint blocks.  The block offsets and the
first keys are taken out of the mapping when a table is opened; a lookup decodes the
one block that can have its key, and an iteration decodes all of them.
-/

namespace Blaze

open Bytes Search

/-! ## Opening a table -/

/-- The words that the error messages of a table use. -/
structure BlockTexts where
  outside : String
  truncated : String
  table : String
  keys : String

/-- Every two neighbours ascend. -/
def ascends (items : List Nat) : Bool :=
  (items.zip items.tail).all fun pair => pair.1 < pair.2

/-- Where the blocks start, the offset of each of them with one more for the end of
the last, and the first key of each of them. -/
structure BlockedTable where
  blocksAt : Nat
  count : Nat
  offsets : List Nat
  firstKeys : List NodeId

namespace BlockedTable

def parse (texts : BlockTexts) (data : List UInt8) (start stop : Nat) :
    Except Fault BlockedTable :=
  match slice data start stop with
  | none => .error (.refused texts.outside)
  | some payload => do
      let name := texts.table
      let keys := texts.keys
      ensure (16 ≤ payload.length) texts.truncated
      let count := getLe 8 payload 0
      let blocks := getLe 8 payload 8
      let table := (16 + (blocks + 1) * 8) % 2 ^ 64
      ensure (table ≤ payload.length)
        s!"{name} claims {blocks} blocks but has no room for their offsets"
      let offsets ← (List.range (blocks + 1)).mapM fun i => readLe 8 payload (16 + i * 8)
      let last := offsets.getD blocks 0
      let bytes := payload.length - table
      ensure (last = bytes)
        s!"{name} length mismatch: offsets end at {last}, payload has {bytes} block bytes"
      ensure (ascends offsets) s!"{name} block offsets are not strictly increasing"
      let blocksAt := start + table
      let firstKeys ← (List.range blocks).mapM fun i => do
        let place := blocksAt + offsets.getD i 0
        ensure (12 ≤ offsets.getD (i + 1) 0 - offsets.getD i 0 ∧ place + 12 ≤ data.length)
          s!"{name} block {i} is too short for its header"
        readLe 8 data place
      ensure (ascends firstKeys) s!"{name} first {keys} are not sorted"
      .ok ⟨blocksAt, count, offsets, firstKeys⟩

/-- Where a block starts. -/
def blockAt (t : BlockedTable) (block : Nat) : Nat :=
  t.blocksAt + t.offsets.getD block 0

end BlockedTable

/-- The key of the next record, and where the rest of the record starts; the key of
the first record of a block is in the header. -/
def nextKey (data : List UInt8) (first : Bool) (cur i : Nat) : Except Fault (Nat × Nat) :=
  if first then
    .ok (cur, i)
  else do
    let read ← getVarint data i
    .ok ((cur + read.1) % 2 ^ 64, read.2)

/-! ## The registry -/

namespace BlockedRegistry

def texts : BlockTexts where
  outside := "registry blob range outside the mapping"
  truncated := "blocked registry truncated (no header)"
  table := "blocked registry"
  keys := "roots"

def parse (data : List UInt8) (start stop : Nat) : Except Fault BlockedTable :=
  BlockedTable.parse texts data start stop

/-- Decode the scopes of a record, and collect them on a hit. -/
def decodeScopes (data : List UInt8) (hit : Bool) :
    Nat → Nat → Nat → List ScopeId → Except Fault (List ScopeId × Nat)
  | 0, i, _, out => .ok (out, i)
  | k + 1, i, scope, out => do
      let read ← getVarint data i
      let scope := (scope + read.1) % 2 ^ 64
      decodeScopes data hit k read.2 scope (if hit then out ++ [scope % 2 ^ 32] else out)

/-- Decode records until the wanted root is passed. -/
def decodeRecords (data : List UInt8) (want stop : Nat) :
    Nat → Bool → Nat → Nat → Except Fault (List ScopeId)
  | 0, _, _, _ => .ok []
  | records + 1, first, cur, i => do
      let key ← nextKey data first cur i
      let count ← getVarint data key.2
      if key.1 > want then
        .ok []
      else do
        let hit := key.1 == want
        let decoded ← decodeScopes data hit count.1 count.2 0 []
        if hit then
          .ok decoded.1
        else do
          ensure (decoded.2 ≤ stop) "blocked registry record ran past its block"
          decodeRecords data want stop records false key.1 decoded.2

def decodeBlock (t : BlockedTable) (data : List UInt8) (block : Nat) (want : NodeId) :
    Except Fault (List ScopeId) := do
  let records ← readLe 4 data (t.blockAt block + 8)
  decodeRecords data want (t.blockAt (block + 1)) records true (t.firstKeys.getD block 0)
    (t.blockAt block + 12)

/-- All scopes recorded for a root; a malformed block yields none. -/
def scopesFor (t : BlockedTable) (data : List UInt8) (root : NodeId) :
    Except Fault (List ScopeId) :=
  let after := partitionPoint (· ≤ root) t.firstKeys
  if after = 0 then
    .ok []
  else
    match decodeBlock t data (after - 1) root with
    | .ok scopes => .ok scopes
    | .error (.refused _) => .ok []
    | .error .panic => .error .panic

end BlockedRegistry

/-- An iteration over a registry: the next block, and the place in the open one. -/
structure BlockedIter where
  block : Nat
  place : Nat
  records : Nat
  root : NodeId
  first : Bool
  scopes : Nat
  scope : Nat

/-- What one turn of the loop of an iteration does. -/
inductive IterStep where
  | item (entry : NodeId × ScopeId) (next : BlockedIter)
  | again (next : BlockedIter)
  | done

namespace BlockedIter

def new : BlockedIter :=
  ⟨0, 0, 0, 0, true, 0, 0⟩

/-- A number that cannot be decoded ends the iteration. -/
def step (t : BlockedTable) (data : List UInt8) (it : BlockedIter) : Except Fault IterStep :=
  if it.scopes > 0 then
    match getVarint data it.place with
    | .error _ => .ok .done
    | .ok read =>
        let scope := (it.scope + read.1) % 2 ^ 64
        .ok (.item (it.root, scope % 2 ^ 32)
          { it with place := read.2, scope := scope, scopes := it.scopes - 1 })
  else if it.records = 0 then
    if it.block ≥ t.firstKeys.length then
      .ok .done
    else do
      let records ← readLe 4 data (t.blockAt it.block + 8)
      .ok (.again { it with
        root := t.firstKeys.getD it.block 0
        records := records
        place := t.blockAt it.block + 12
        first := true
        block := it.block + 1 })
  else
    match nextKey data it.first it.root it.place with
    | .error _ => .ok .done
    | .ok key =>
        match getVarint data key.2 with
        | .error _ => .ok .done
        | .ok count =>
            .ok (.again { it with
              root := key.1
              first := false
              place := count.2
              scopes := count.1
              scope := 0
              records := it.records - 1 })

/-- The entries of an iteration, when it ends within a number of turns. -/
def collect (t : BlockedTable) (data : List UInt8) :
    Nat → BlockedIter → Except Fault (Option (List (NodeId × ScopeId)))
  | 0, _ => .ok none
  | turns + 1, it => do
      match ← it.step t data with
      | .item entry next => do .ok ((← collect t data turns next).map (entry :: ·))
      | .again next => collect t data turns next
      | .done => .ok (some [])

end BlockedIter

/-! ## The member index -/

namespace BlockedMembers

def texts : BlockTexts where
  outside := "member blob range outside the mapping"
  truncated := "blocked member index truncated"
  table := "blocked member index"
  keys := "parents"

def parse (data : List UInt8) (start stop : Nat) : Except Fault BlockedTable :=
  BlockedTable.parse texts data start stop

/-- Decode the children of a record, and push them on a hit until the limit is
reached.  The place after the record is missing when the caller returns here, by the
limit or by a number that cannot be decoded; what was pushed stays. -/
def decodeChildren (data : List UInt8) (hit : Bool) (limit : Nat) :
    Nat → Nat → Nat → Nat → List NodeId → List NodeId × Option Nat
  | 0, i, _, _, out => (out, some i)
  | k + 1, i, child, taken, out =>
      if hit ∧ taken ≥ limit then
        (out, none)
      else
        match getVarint data i with
        | .error _ => (out, none)
        | .ok read =>
            let child := (child + read.1) % 2 ^ 64
            if hit then
              decodeChildren data hit limit k read.2 child (taken + 1) (out ++ [child])
            else
              decodeChildren data hit limit k read.2 child taken out

/-- Decode records until the wanted parent is passed; errors are dropped. -/
def decodeRecords (data : List UInt8) (want stop limit : Nat) :
    Nat → Bool → Nat → Nat → List NodeId → List NodeId
  | 0, _, _, _, out => out
  | records + 1, first, cur, i, out =>
      match nextKey data first cur i with
      | .error _ => out
      | .ok key =>
          match getVarint data key.2 with
          | .error _ => out
          | .ok count =>
              if key.1 > want then
                -- the records are ordered, so the parent has none
                out
              else
                let hit := key.1 == want
                match decodeChildren data hit limit count.1 count.2 0 0 out with
                | (out, none) => out
                | (out, some i) =>
                    if hit then
                      out
                    else if i ≤ stop then
                      decodeRecords data want stop limit records false key.1 i out
                    else
                      out

def decodeBlock (t : BlockedTable) (data : List UInt8) (block : Nat) (want : NodeId) (limit : Nat)
    (out : List NodeId) : Except Fault (List NodeId) := do
  let records ← readLe 4 data (t.blockAt block + 8)
  .ok (decodeRecords data want (t.blockAt (block + 1)) limit records true
    (t.firstKeys.getD block 0) (t.blockAt block + 12) out)

/-- Append the children recorded for a parent. -/
def childrenOf (t : BlockedTable) (data : List UInt8) (parent : NodeId) (limit : Nat)
    (out : List NodeId) : Except Fault (List NodeId) :=
  if limit = 0 then
    .ok out
  else
    let after := partitionPoint (· ≤ parent) t.firstKeys
    if after = 0 then
      .ok out
    else
      decodeBlock t data (after - 1) parent limit out

/-- The children of a record as pairs, and the place after the record unless a number
cannot be decoded. -/
def eachChild (data : List UInt8) (parent : NodeId) :
    Nat → Nat → Nat → List (NodeId × NodeId) × Option Nat
  | 0, i, _ => ([], some i)
  | k + 1, i, child =>
      match getVarint data i with
      | .error _ => ([], none)
      | .ok read =>
          let child := (child + read.1) % 2 ^ 64
          let rest := eachChild data parent k read.2 child
          ((parent, child) :: rest.1, rest.2)

/-- The pairs of the records of a block, and whether the iteration goes on. -/
def eachRecord (data : List UInt8) : Nat → Bool → Nat → Nat → List (NodeId × NodeId) × Bool
  | 0, _, _, _ => ([], true)
  | records + 1, first, cur, i =>
      match nextKey data first cur i with
      | .error _ => ([], false)
      | .ok key =>
          match getVarint data key.2 with
          | .error _ => ([], false)
          | .ok count =>
              match eachChild data key.1 count.1 count.2 0 with
              | (pairs, none) => (pairs, false)
              | (pairs, some i) =>
                  let rest := eachRecord data records false key.1 i
                  (pairs ++ rest.1, rest.2)

/-- The pairs of a number of blocks from one on. -/
def eachBlock (t : BlockedTable) (data : List UInt8) : Nat → Nat → List (NodeId × NodeId)
  | 0, _ => []
  | blocks + 1, block =>
      match slice data (t.blockAt block + 8) (t.blockAt block + 12) with
      | none => []
      | some bytes =>
          let pairs := eachRecord data (ofLe bytes) true (t.firstKeys.getD block 0)
            (t.blockAt block + 12)
          if pairs.2 then pairs.1 ++ eachBlock t data blocks (block + 1) else pairs.1

/-- Every pair of parent and child in order. -/
def forEach (t : BlockedTable) (data : List UInt8) : List (NodeId × NodeId) :=
  eachBlock t data t.firstKeys.length 0

end BlockedMembers

end Blaze
