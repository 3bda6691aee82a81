import Blaze.Lib.ByteReader

/-!
# Blocked membership filters

A filter over the keys of a table.  All bits of a key lie in one block of eight
words, so that a probe touches one cache line.
-/

namespace Blaze

open Bytes

/-- Bits set per key. -/
def filterK : Nat := 6

/-- Bits of one block. -/
def blockBits : Nat := 512

/-- Words of one block. -/
def blockWords : Nat := blockBits / 64

def defaultFilterBits : Nat := 8

def clampFilterBits (bits : Nat) : Nat :=
  min bits 64

/-- The first word of an encoded filter. -/
def filterMagic : Nat := 0x424C4631

/-- A number in hexadecimal digits. -/
def hex (n : Nat) : String :=
  "0x" ++ String.ofList (Nat.toDigits 16 n)

/-- The splitmix64 finaliser. -/
def mix (x : UInt64) : UInt64 :=
  let z := x + 0x9E3779B97F4A7C15
  let z := (z ^^^ (z >>> 30)) * 0xBF58476D1CE4E5B9
  let z := (z ^^^ (z >>> 27)) * 0x94D049BB133111EB
  z ^^^ (z >>> 31)

/-- The hash of an overlay key, which is a scope and a node. -/
def overlayKey (scope : Nat) (node : UInt64) : UInt64 :=
  mix (node ^^^ (UInt64.ofNat scope <<< 40) * 0x9E3779B9)

structure BlockedFilter where
  blocks : List (List UInt64)
  deriving DecidableEq

namespace BlockedFilter

/-- The bits a key sets in its block: each round of the hash picks one. -/
def pattern (hash : UInt64 → UInt64) : Nat → UInt64 → List UInt64 → List UInt64
  | 0, _, words => words
  | rounds + 1, h, words =>
      let h := hash h
      let bit := h.toNat % blockBits
      pattern hash rounds h (words.modify (bit / 64) (· ||| (1 <<< UInt64.ofNat (bit % 64))))

/-- The block a key belongs to, and the bit pattern it sets there. -/
def locate (filter : BlockedFilter) (key : UInt64) : Nat × List UInt64 :=
  let h := mix key
  ((h >>> 32).toNat % filter.blocks.length, pattern mix filterK h (List.replicate blockWords 0))

/-- Set the bits of one key. -/
def insert (filter : BlockedFilter) (key : UInt64) : BlockedFilter :=
  let located := filter.locate key
  ⟨filter.blocks.modify located.1 fun block => List.zipWith (· ||| ·) block located.2⟩

/-- Build over the keys; the hint only sizes the filter. -/
def build (keys : List UInt64) (hint bitsPerKey : Nat) : BlockedFilter :=
  let bits := max (clampFilterBits bitsPerKey) 1
  let blocks := max ((hint * bits % 2 ^ 64 + (blockBits - 1)) / blockBits) 1
  keys.foldl insert ⟨List.replicate blocks (List.replicate blockWords 0)⟩

/-- Build at the given number of bits per key; none for zero. -/
def buildWith (keys : List UInt64) (hint bitsPerKey : Nat) : Option BlockedFilter :=
  let bits := clampFilterBits bitsPerKey
  if bits = 0 then none else some (build keys hint bits)

/-- Whether a word has all bits of another one. -/
def hasBits (word bits : UInt64) : Bool :=
  word &&& bits == bits

/-- Whether a key may be among those the filter was built over.  The remainder by
the number of blocks panics when there are none. -/
def mayContain (filter : BlockedFilter) (key : UInt64) : Except Fault Bool :=
  if filter.blocks.length = 0 then
    .error .panic
  else
    let located := filter.locate key
    match filter.blocks[located.1]? with
    | none => .error .panic
    | some block => .ok ((List.zipWith hasBits block located.2).all id)

def encode (filter : BlockedFilter) : List UInt8 :=
  putLe 4 filterMagic ++ putLe 4 filter.blocks.length ++
    filter.blocks.flatMap fun block => block.flatMap fun word => putLe 8 word.toNat

/-- One word of an encoded filter. -/
def readWord (data : List UInt8) (block word : Nat) : Except Fault UInt64 := do
  .ok (UInt64.ofNat (← readLe 8 data (8 + (block * blockWords + word) * 8)))

def decode (data : List UInt8) : Except Fault BlockedFilter := do
  ensure (8 ≤ data.length) "filter blob truncated"
  let magic := getLe 4 data 0
  ensure (magic = filterMagic) s!"filter blob has wrong magic {hex magic}"
  let count := getLe 4 data 4
  let want := 8 + count * blockWords * 8
  let got := data.length
  ensure (got = want)
    s!"filter blob length mismatch: header says {count} blocks ({want} bytes), got {got}"
  let blocks ← (List.range count).mapM fun block =>
    (List.range blockWords).mapM (readWord data block)
  .ok ⟨blocks⟩

end BlockedFilter

end Blaze
