import Blaze.Lib.ByteReader
import Blaze.Lib.SortedSearch
import Blaze.Storage.Base

/-!
# Tables inside a mapping

Readers over the fixed-stride tables of a mapped file: the tables of pairs and the
flat registry, and the sparse index that narrows a search to one or two blocks of
entries.  Places in the mapping are 64-bit numbers, and a read outside of it panics.
-/

namespace Blaze

open List Bytes Fallible Search

variable {i stop start : Nat} {data : List UInt8}

def pairStride : Nat := 16

def registryStride : Nat := 12

/-- Page size the sparse index blocks against. -/
def pageBytes : Nat := 4096

/-! ## The sparse index -/

/-- The first key of every page-sized block of entries. -/
structure SparseIndex where
  block : Nat
  firstKeys : List NodeId

namespace SparseIndex

/-- Nothing when the whole table fits inside one block. -/
def build (count stride : Nat) (keyAt : Nat → Except Fault NodeId) :
    Except Fault (Option SparseIndex) :=
  let block := pageBytes / stride
  if count ≤ block then
    .ok none
  else do
    let firstKeys ← ((List.range ((count + block - 1) / block)).map (· * block)).mapM keyAt
    .ok (some ⟨block, firstKeys⟩)

/-- The entries that can have a key, in a table with unique keys. -/
def narrowExact (ix : SparseIndex) (count : Nat) (key : NodeId) : Nat × Nat :=
  let after := partitionPoint (· ≤ key) ix.firstKeys
  if after = 0 then
    (0, 0)
  else
    let b := after - 1
    (b * ix.block, min ((b + 1) * ix.block) count)

/-- The entries that hold the lower bound of a key, in a table whose keys may
repeat. -/
def narrowLowerBound (ix : SparseIndex) (count : Nat) (key : NodeId) : Nat × Nat :=
  let b := partitionPoint (· < key) ix.firstKeys
  ((b - 1) * ix.block, min ((b + 1) * ix.block) count)

end SparseIndex

/-- Check the header of a fixed-stride table and return its count. -/
def parseTable (table entries : String) (stride : Nat) (data : List UInt8) (start stop : Nat) :
    Except Fault Nat :=
  match slice data start stop with
  | none => .error .panic
  | some payload => do
      ensure (8 ≤ payload.length) s!"{table} truncated (no header)"
      let count := getLe 8 payload 0
      let bytes := payload.length - 8
      ensure (payload.length = (8 + count * stride) % 2 ^ 64)
        s!"{table} length mismatch: header says {count} {entries}, payload has {bytes} bytes"
      .ok count

/-! ## Tables of pairs -/

/-- A sorted table of pairs of ids inside a mapping. -/
structure MappedPairTable where
  start : Nat
  count : Nat
  index : Option SparseIndex

namespace MappedPairTable

/-- Parse the header only; the sparse index is built afterwards. -/
def parse (data : List UInt8) (start stop : Nat) : Except Fault MappedPairTable := do
  let count ← parseTable "pair table" "pairs" pairStride data start stop
  .ok ⟨start + 8, count, none⟩

def keyAt (t : MappedPairTable) (data : List UInt8) (i : Nat) : Except Fault NodeId :=
  readLe 8 data ((t.start + i * pairStride) % 2 ^ 64)

def valueAt (t : MappedPairTable) (data : List UInt8) (i : Nat) : Except Fault NodeId :=
  readLe 8 data ((t.start + i * pairStride + 8) % 2 ^ 64)

/-- Binary search of the sorted keys, narrowed to one block by the sparse index. -/
def lookup (t : MappedPairTable) (data : List UInt8) (node : NodeId) :
    Except Fault (Option NodeId) := do
  let range := (t.index.map fun ix => ix.narrowExact t.count node).getD (0, t.count)
  match ← bisect (fun i => do .ok (compare (← t.keyAt data i) node)) range.1 range.2 with
  | none => .ok none
  | some i => do .ok (some (← t.valueAt data i))

/-- First index whose key is not below a node, over the whole table. -/
def lowerBound (t : MappedPairTable) (data : List UInt8) (node : NodeId) : Except Fault Nat :=
  Search.lowerBound (fun i => do .ok (decide ((← t.keyAt data i) < node))) 0 t.count

/-- Append at most `limit` values recorded for a key. -/
def valuesFor (t : MappedPairTable) (data : List UInt8) (key : NodeId) (limit : Nat)
    (out : List NodeId) : Except Fault (List NodeId) :=
  if limit = 0 then
    .ok out
  else do
    let i ← t.lowerBound data key
    takeRun (t.keyAt data) (t.valueAt data) key (min (t.count - i) limit) i out

end MappedPairTable

/-! ## The flat registry -/

/-- A sorted table of roots with their scopes inside a mapping. -/
structure FlatRegistry where
  start : Nat
  count : Nat
  index : Option SparseIndex

namespace FlatRegistry

def rootAt (t : FlatRegistry) (data : List UInt8) (i : Nat) : Except Fault NodeId :=
  readLe 8 data ((t.start + i * registryStride) % 2 ^ 64)

def scopeAt (t : FlatRegistry) (data : List UInt8) (i : Nat) : Except Fault ScopeId :=
  readLe 4 data ((t.start + i * registryStride + 8) % 2 ^ 64)

def parse (data : List UInt8) (start stop : Nat) : Except Fault FlatRegistry := do
  let count ← parseTable "registry table" "entries" registryStride data start stop
  let table : FlatRegistry := ⟨start + 8, count, none⟩
  let index ← SparseIndex.build count registryStride (table.rootAt data)
  .ok { table with index := index }

def iter (t : FlatRegistry) (data : List UInt8) : Except Fault (List (NodeId × ScopeId)) :=
  (List.range t.count).mapM fun i => do .ok (← t.rootAt data i, ← t.scopeAt data i)

/-- All scopes recorded for a root: lower-bound search, then a scan of the run, which
may spill past the narrowed range. -/
def scopesFor (t : FlatRegistry) (data : List UInt8) (root : NodeId) :
    Except Fault (List ScopeId) := do
  let range := (t.index.map fun ix => ix.narrowLowerBound t.count root).getD (0, t.count)
  let i ← Search.lowerBound (fun i => do .ok (decide ((← t.rootAt data i) < root)))
    range.1 range.2
  takeRun (t.rootAt data) (t.scopeAt data) root (t.count - i) i []

end FlatRegistry

/-! ## What a sparse index narrows to -/

/-- The blocks that a number of entries takes are those that start before its end. -/
theorem lt_blocks_iff {block : Nat} (positive : 0 < block) (count i : Nat) :
    i < (count + block - 1) / block ↔ i * block < count := by
  rw [← Nat.succ_le_iff, Nat.le_div_iff_mul_le positive, Nat.succ_mul]
  omega

namespace SparseIndex

/-- The index has the keys at the multiples of its block size. -/
structure Samples (ix : SparseIndex) (keys : List NodeId) : Prop where
  positive : 0 < ix.block
  sampled : ∀ i, ix.firstKeys[i]? = keys[i * ix.block]?

variable {ix : SparseIndex} {keys : List NodeId} {key : NodeId}

/-- The range of a key that is in the table contains its place. -/
theorem Samples.narrowExact_found (samples : ix.Samples keys)
    (ascending : keys.Pairwise (· < ·)) {j : Nat} (at_j : keys[j]? = some key) :
    (ix.narrowExact keys.length key).1 ≤ j ∧ j < (ix.narrowExact keys.length key).2 := by
  obtain ⟨bound, rfl⟩ := List.getElem?_eq_some_iff.mp at_j
  have below : j / ix.block * ix.block ≤ j := Nat.div_mul_le_self j ix.block
  have first : partitionPoint (· ≤ keys[j]) ix.firstKeys = j / ix.block + 1 := by
    apply partitionPoint_eq
    · intro i other at_i
      rw [samples.sampled] at at_i
      obtain ⟨inside, rfl⟩ := List.getElem?_eq_some_iff.mp at_i
      rw [decide_eq_true_iff, Nat.lt_succ_iff, Nat.le_div_iff_mul_le samples.positive]
      constructor
      · intro le
        by_contra behind
        exact absurd le (not_le.mpr (pairwise_iff_getElem.mp ascending j _ bound inside
          (not_le.mp behind)))
      · intro before
        rcases Nat.eq_or_lt_of_le before with same | less
        · simp [same]
        · exact (pairwise_iff_getElem.mp ascending _ j inside bound less).le
    · by_contra short
      have missing : ix.firstKeys[j / ix.block]? = none :=
        getElem?_eq_none (Nat.le_of_lt_succ (not_le.mp short))
      rw [samples.sampled, getElem?_eq_getElem (below.trans_lt bound)] at missing
      cases missing
  rw [narrowExact, first, if_neg (Nat.succ_ne_zero _)]
  refine ⟨below, lt_min ?_ bound⟩
  rw [Nat.add_sub_cancel]
  exact Nat.lt_mul_of_div_lt (Nat.lt_succ_self _) samples.positive

theorem narrowExact_le (ix : SparseIndex) (count : Nat) (key : NodeId) :
    (ix.narrowExact count key).2 ≤ count := by
  unfold narrowExact
  dsimp only
  split
  · exact Nat.zero_le _
  · exact Nat.min_le_right _ _

/-- The range for a lower bound contains it. -/
theorem Samples.narrowLowerBound_contains (samples : ix.Samples keys)
    (ascending : keys.Pairwise (· ≤ ·)) (key : NodeId) :
    (ix.narrowLowerBound keys.length key).1 ≤ partitionPoint (· < key) keys ∧
      partitionPoint (· < key) keys ≤ (ix.narrowLowerBound keys.length key).2 := by
  have falls : keys.Pairwise fun first second => (decide (second < key)) → decide (first < key) :=
    ascending.imp fun le less => by simpa using le.trans_lt (by simpa using less)
  have inside := partitionPoint_le (fun other => decide (other < key)) keys
  generalize point : partitionPoint (fun other => decide (other < key)) keys = p at inside
  have counts := lt_blocks_iff samples.positive p
  have first : partitionPoint (· < key) ix.firstKeys = (p + ix.block - 1) / ix.block := by
    apply partitionPoint_eq
    · intro i other at_i
      rw [samples.sampled] at at_i
      rw [counts, ← point]
      exact (lt_partitionPoint_iff falls at_i).symm
    · by_contra short
      have missing : ix.firstKeys[ix.firstKeys.length]? = none := getElem?_eq_none le_rfl
      rw [samples.sampled, List.getElem?_eq_none_iff] at missing
      exact absurd (((counts _).mp (not_le.mp short)).trans_le inside) (not_lt.mpr missing)
  rw [narrowLowerBound, first]
  -- from here on only the samples before the lower bound matter, not how they are counted
  generalize (p + ix.block - 1) / ix.block = b at counts
  constructor
  · rcases b with _ | b
    · exact (Nat.zero_mul _).trans_le (Nat.zero_le _)
    · exact ((counts b).mp (Nat.lt_succ_self b)).le
  · have enough := not_lt.mp (mt (counts b).mpr (lt_irrefl b))
    refine le_min (enough.trans ?_) inside
    exact Nat.mul_le_mul_right _ (Nat.le_succ b)

/-- A built index samples the keys it was given. -/
theorem build_eq {keyAt : Nat → Except Fault NodeId} {stride : Nat}
    (positive : 0 < pageBytes / stride)
    (reads : ∀ i other, keys[i]? = some other → keyAt i = .ok other) :
    ∃ index, build keys.length stride keyAt = .ok index ∧ ∀ ix ∈ index, ix.Samples keys := by
  unfold build
  dsimp only
  generalize pageBytes / stride = block at positive
  split
  · exact ⟨none, rfl, by simp⟩
  · have inside := lt_blocks_iff positive keys.length
    have sampled : ((List.range ((keys.length + block - 1) / block)).map (· * block)).mapM keyAt =
        .ok (((List.range ((keys.length + block - 1) / block)).map (· * block)).map
          fun i => keys.getD i 0) := by
      apply mapM_eq_ok
      intro i member
      obtain ⟨b, small, rfl⟩ := mem_map.mp member
      have bound := (inside b).mp (mem_range.mp small)
      rw [reads _ _ (getElem?_eq_getElem bound), getD_eq_getElem _ _ bound]
    rw [sampled]
    refine ⟨_, rfl, fun ix isIndex => ?_⟩
    cases isIndex
    refine ⟨positive, fun i => ?_⟩
    dsimp only
    by_cases small : i < (keys.length + block - 1) / block
    · have bound := (inside i).mp small
      simp [getElem?_range small, bound]
    · have beyond := not_lt.mp (mt (inside i).mpr small)
      rw [getElem?_eq_none beyond, getElem?_eq_none]
      simpa using not_lt.mp small

end SparseIndex

/-! ## What the tables answer -/

/-- An entry of a table: an id, then a value of a fixed width. -/
def entryBytes (width : Nat) (entry : Nat × Nat) : List UInt8 :=
  putLe 8 entry.1 ++ putLe width entry.2

@[simp]
theorem length_entryBytes (width : Nat) (entry : Nat × Nat) :
    (entryBytes width entry).length = 8 + width := by
  simp [entryBytes]

theorem length_entries (width : Nat) (entries : List (Nat × Nat)) :
    (entries.flatMap (entryBytes width)).length = entries.length * (8 + width) := by
  induction entries with
  | nil => simp
  | cons entry entries ih =>
    rw [flatMap_cons, length_append, length_entryBytes, ih,
      length_cons, Nat.succ_mul, Nat.add_comm]

/-- A table as it is written: its count, then its entries. -/
def tableBytes (width : Nat) (entries : List (Nat × Nat)) : List UInt8 :=
  putLe 8 entries.length ++ entries.flatMap (entryBytes width)

/-- The entries stand one after the other, and each fits its width. -/
structure Tabled (data : List UInt8) (start width : Nat) (entries : List (Nat × Nat)) : Prop where
  mapped : data.length < 2 ^ 64
  bytes : Holds data start (entries.flatMap (entryBytes width))
  keys : ∀ entry ∈ entries, entry.1 < 2 ^ 64
  values : ∀ entry ∈ entries, entry.2 < 256 ^ width

section Tabled

variable {width : Nat} {entries : List (Nat × Nat)}

/-- An entry stands inside of the mapping. -/
theorem Tabled.entry_holds (tabled : Tabled data start width entries) {entry : Nat × Nat}
    (at_i : entries[i]? = some entry) :
    Holds data (start + i * (8 + width)) (entryBytes width entry) ∧
      start + i * (8 + width) + 8 + width ≤ data.length := by
  have holds := tabled.bytes.item (length_entryBytes width) at_i
  have inside := holds.le_length (ne_nil_of_length_pos (by simp))
  rw [length_entryBytes, ← Nat.add_assoc] at inside
  exact ⟨holds, inside⟩

theorem Tabled.reads (tabled : Tabled data start width entries) (positive : 0 < width)
    {entry : Nat × Nat} (at_i : entries[i]? = some entry) :
    readLe 8 data ((start + i * (8 + width)) % 2 ^ 64) = .ok entry.1 ∧
      readLe width data ((start + i * (8 + width) + 8) % 2 ^ 64) = .ok entry.2 := by
  have member := mem_of_getElem? at_i
  obtain ⟨holds, inside⟩ := tabled.entry_holds at_i
  have mapped := tabled.mapped
  rw [entryBytes, holds_append, length_putLe] at holds
  rw [Nat.mod_eq_of_lt (by omega), Nat.mod_eq_of_lt (by omega)]
  exact ⟨readLe_of_holds (by decide) holds.1 (tabled.keys entry member),
    readLe_of_holds positive holds.2 (tabled.values entry member)⟩

/-- The header of a table that was written is accepted. -/
theorem parseTable_eq (sliced : slice data start stop = some (tableBytes width entries))
    (positive : 0 < width) (mapped : data.length < 2 ^ 64) (table items : String) :
    parseTable table items (8 + width) data start stop = .ok entries.length := by
  have size : (tableBytes width entries).length = 8 + entries.length * (8 + width) := by
    rw [tableBytes, length_append, length_putLe, length_entries]
  have fits : 8 + entries.length * (8 + width) < 2 ^ 64 := by
    rw [← size]
    exact (length_le_of_slice sliced).trans_lt mapped
  have few : entries.length < 256 ^ 8 := by
    have less := Nat.le_mul_of_pos_right entries.length (Nat.add_pos_right 8 positive)
    exact lt_of_le_of_lt (less.trans (Nat.le_add_left _ _)) fits
  have header : getLe 8 (tableBytes width entries) 0 = entries.length := by
    rw [tableBytes, getLe_putLe_append, Nat.mod_eq_of_lt few]
  rw [parseTable, sliced]
  dsimp only
  rw [header, ensure_of (by rw [size]; exact Nat.le_add_right _ _),
    ensure_of (by rw [size, Nat.mod_eq_of_lt fits])]
  rfl

theorem tabled_of_slice (sliced : slice data start stop = some (tableBytes width entries))
    (mapped : data.length < 2 ^ 64) (keys : ∀ entry ∈ entries, entry.1 < 2 ^ 64)
    (values : ∀ entry ∈ entries, entry.2 < 256 ^ width) :
    Tabled data (start + 8) width entries := by
  have holds := holds_of_slice sliced
  rw [tableBytes, holds_append, length_putLe] at holds
  exact ⟨mapped, holds.2, keys, values⟩

end Tabled

namespace MappedPairTable

/-- The table has the pairs. -/
structure Stores (t : MappedPairTable) (data : List UInt8) (pairs : List (NodeId × NodeId)) :
    Prop where
  count : t.count = pairs.length
  tabled : Tabled data t.start 8 pairs

variable {t : MappedPairTable} {pairs : List (NodeId × NodeId)}

section Stores

variable (stores : t.Stores data pairs)

include stores

theorem Stores.reads {pair : NodeId × NodeId} (at_i : pairs[i]? = some pair) :
    t.keyAt data i = .ok pair.1 ∧ t.valueAt data i = .ok pair.2 :=
  stores.tabled.reads (by decide) at_i

/-- Limited values are the first ones of a key. -/
theorem Stores.valuesFor_eq (ascending : pairs.Pairwise fun first second => first.1 ≤ second.1)
    (key : NodeId) (limit : Nat) (out : List NodeId) :
    t.valuesFor data key limit out =
      .ok (out ++ ((pairs.filter fun pair => pair.1 = key).map Prod.snd).take limit) := by
  unfold valuesFor
  split
  · next none => simp [none]
  · rw [lowerBound, stores.count, lowerBound_of_ascending (fun i pair at_i => (stores.reads at_i).1)
      ascending (Nat.zero_le _) (partitionPoint_le _ _) le_rfl]
    exact takeRun_of_ascending (fun i pair at_i => stores.reads at_i) ascending key limit out

/-- Comparing keys with a node, as far as the table goes. -/
theorem Stores.compares (node : NodeId) (i : Nat) (other : NodeId)
    (at_i : (pairs.map Prod.fst)[i]? = some other) :
    (do .ok (compare (← t.keyAt data i) node) : Except Fault Ordering) =
      .ok (compare other node) := by
  rw [getElem?_map, Option.map_eq_some_iff] at at_i
  obtain ⟨pair, at_i, rfl⟩ := at_i
  rw [(stores.reads at_i).1]
  rfl

/-- The narrowed range lies inside of the table. -/
theorem Stores.range_le (node : NodeId) :
    ((t.index.map fun ix => ix.narrowExact t.count node).getD (0, t.count)).2 ≤
      (pairs.map Prod.fst).length := by
  rw [length_map, ← stores.count]
  cases t.index with
  | none => exact le_rfl
  | some ix => exact ix.narrowExact_le t.count node

/-- Nothing is found for a node that has no pair. -/
theorem Stores.lookup_absent {node : NodeId} (absent : node ∉ pairs.map Prod.fst) :
    t.lookup data node = .ok none := by
  unfold lookup
  dsimp only
  rw [bisect_absent (stores.compares node) (stores.range_le node) absent]
  rfl

/-- The same pairs under the same index give the same answers, wherever they stand. -/
theorem Stores.lookup_congr {other : MappedPairTable} {otherData : List UInt8}
    (others : other.Stores otherData pairs) (same : t.index = other.index) (node : NodeId) :
    t.lookup data node = other.lookup otherData node := by
  have inside := stores.range_le node
  unfold lookup
  dsimp only
  rw [← same, others.count, ← stores.count]
  generalize (t.index.map fun ix => ix.narrowExact t.count node).getD (0, t.count) = range
    at inside ⊢
  rw [length_map] at inside
  have at_some : ∀ i < range.2, ∃ pair, pairs[i]? = some pair := fun i below =>
    ⟨_, getElem?_eq_getElem (below.trans_le inside)⟩
  have agree : ∀ i < range.2, (do .ok (compare (← t.keyAt data i) node) : Except Fault Ordering) =
      (do .ok (compare (← other.keyAt otherData i) node)) := by
    intro i below
    obtain ⟨pair, at_i⟩ := at_some i below
    rw [(stores.reads at_i).1, (others.reads at_i).1]
  have answers : ∀ i < range.2, ∃ answer,
      (do .ok (compare (← t.keyAt data i) node) : Except Fault Ordering) = .ok answer := by
    intro i below
    obtain ⟨pair, at_i⟩ := at_some i below
    rw [(stores.reads at_i).1]
    exact ⟨_, rfl⟩
  obtain ⟨found, searched, within⟩ := exists_bisect answers range.1
  have otherSearched := (bisect_congr agree range.1).symm.trans searched
  rw [searched, otherSearched]
  cases found with
  | none => rfl
  | some i =>
    obtain ⟨pair, at_i⟩ := at_some i (within i rfl)
    change (do .ok (some (← t.valueAt data i)) : Except Fault (Option NodeId)) =
      (do .ok (some (← other.valueAt otherData i)))
    rw [(stores.reads at_i).2, (others.reads at_i).2]

/-- A lookup is a linear search, whether the table has an index or not. -/
theorem Stores.lookup_eq (ascending : (pairs.map Prod.fst).Pairwise (· < ·))
    (indexed : ∀ ix ∈ t.index, ix.Samples (pairs.map Prod.fst)) (node : NodeId) :
    t.lookup data node = .ok (pairs.lookup node) := by
  cases found : pairs.lookup node with
  | none => exact stores.lookup_absent (PairTable.lookup_eq_none_iff.mp found)
  | some value =>
    have member := (PairTable.lookup_eq_some_iff (ascending.imp ne_of_lt)).mp found
    obtain ⟨j, at_j⟩ := mem_iff_getElem?.mp member
    have key : (pairs.map Prod.fst)[j]? = some node := by
      rw [getElem?_map, at_j]
      rfl
    have range : ((t.index.map fun ix => ix.narrowExact t.count node).getD (0, t.count)).1 ≤ j ∧
        j < ((t.index.map fun ix => ix.narrowExact t.count node).getD (0, t.count)).2 := by
      cases index : t.index with
      | none =>
        obtain ⟨bound, -⟩ := List.getElem?_eq_some_iff.mp at_j
        exact ⟨Nat.zero_le _, stores.count ▸ bound⟩
      | some ix =>
        have narrowed := (indexed ix index).narrowExact_found ascending key
        rwa [length_map, ← stores.count] at narrowed
    unfold lookup
    dsimp only
    rw [bisect_found ascending (stores.compares node) (stores.range_le node) key range.1 range.2]
    change (do .ok (some (← t.valueAt data j)) : Except Fault (Option NodeId)) = _
    rw [(stores.reads at_j).2]
    rfl

end Stores

/-- A table that was written is parsed where it stands. -/
theorem parse_eq (sliced : slice data start stop = some (tableBytes 8 pairs))
    (mapped : data.length < 2 ^ 64) :
    parse data start stop = .ok ⟨start + 8, pairs.length, none⟩ := by
  rw [parse, show pairStride = 8 + 8 from rfl, parseTable_eq sliced (by decide) mapped]
  rfl

theorem stores_of_slice (sliced : slice data start stop = some (tableBytes 8 pairs))
    (mapped : data.length < 2 ^ 64) (keys : ∀ pair ∈ pairs, pair.1 < 2 ^ 64)
    (values : ∀ pair ∈ pairs, pair.2 < 2 ^ 64) :
    Stores ⟨start + 8, pairs.length, none⟩ data pairs :=
  ⟨rfl, tabled_of_slice sliced mapped keys values⟩

end MappedPairTable

namespace FlatRegistry

/-- The registry has the entries, and its index their roots. -/
structure Stores (t : FlatRegistry) (data : List UInt8) (entries : List (NodeId × ScopeId)) :
    Prop where
  count : t.count = entries.length
  tabled : Tabled data t.start 4 entries
  indexed : ∀ ix ∈ t.index, ix.Samples (entries.map Prod.fst)

variable {t : FlatRegistry} {entries : List (NodeId × ScopeId)}

theorem Stores.reads (stores : t.Stores data entries) {entry : NodeId × ScopeId}
    (at_i : entries[i]? = some entry) :
    t.rootAt data i = .ok entry.1 ∧ t.scopeAt data i = .ok entry.2 :=
  stores.tabled.reads (by decide) at_i

theorem Stores.iter_eq (stores : t.Stores data entries) : t.iter data = .ok entries := by
  rw [iter, stores.count]
  apply mapM_range_eq_ok
  intro i entry at_i
  obtain ⟨root, scope⟩ := stores.reads at_i
  rw [root, scope]
  rfl

theorem Stores.scopesFor_eq (stores : t.Stores data entries)
    (ascending : entries.Pairwise fun first second => first.1 ≤ second.1) (root : NodeId) :
    t.scopesFor data root =
      .ok ((entries.filter fun entry => entry.1 = root).map Prod.snd) := by
  have points : partitionPoint (· < root) (entries.map Prod.fst) =
      partitionPoint (fun entry => entry.1 < root) entries := by
    rw [partitionPoint, partitionPoint, takeWhile_map, length_map]
    rfl
  have range :
      ((t.index.map fun ix => ix.narrowLowerBound t.count root).getD (0, t.count)).1 ≤
          partitionPoint (fun entry => entry.1 < root) entries ∧
        partitionPoint (fun entry => entry.1 < root) entries ≤
          ((t.index.map fun ix => ix.narrowLowerBound t.count root).getD (0, t.count)).2 ∧
        ((t.index.map fun ix => ix.narrowLowerBound t.count root).getD (0, t.count)).2 ≤
          entries.length := by
    rw [stores.count]
    cases index : t.index with
    | none => exact ⟨Nat.zero_le _, partitionPoint_le _ _, le_rfl⟩
    | some ix =>
      have contains := (stores.indexed ix index).narrowLowerBound_contains
        (pairwise_map.mpr ascending) root
      rw [length_map, points] at contains
      exact ⟨contains.1, contains.2, Nat.min_le_right _ _⟩
  have run := takeRun_of_ascending (fun i entry at_i => stores.reads at_i) ascending root
    entries.length []
  rw [Nat.min_eq_left (Nat.sub_le _ _), nil_append,
    take_of_length_le (by simpa using length_filter_le _ _)] at run
  unfold scopesFor
  dsimp only
  rw [lowerBound_of_ascending (fun i entry at_i => (stores.reads at_i).1) ascending range.1
    range.2.1 range.2.2, ← run, stores.count]
  rfl

/-- A registry that was written is parsed where it stands, and indexed. -/
theorem parse_eq (sliced : slice data start stop = some (tableBytes 4 entries))
    (mapped : data.length < 2 ^ 64) (keys : ∀ entry ∈ entries, entry.1 < 2 ^ 64)
    (values : ∀ entry ∈ entries, entry.2 < 2 ^ 32) :
    ∃ t, parse data start stop = .ok t ∧ t.Stores data entries := by
  have tabled := tabled_of_slice sliced mapped keys values
  have roots : ∀ i other, (entries.map Prod.fst)[i]? = some other →
      rootAt ⟨start + 8, entries.length, none⟩ data i = .ok other := by
    intro i other at_i
    rw [getElem?_map, Option.map_eq_some_iff] at at_i
    obtain ⟨entry, at_i, rfl⟩ := at_i
    exact (tabled.reads (by decide) at_i).1
  obtain ⟨index, built, indexed⟩ :=
    SparseIndex.build_eq (by decide : 0 < pageBytes / registryStride) roots
  rw [length_map] at built
  refine ⟨⟨start + 8, entries.length, index⟩, ?_, rfl, tabled, indexed⟩
  rw [parse, show registryStride = 8 + 4 from rfl, parseTable_eq sliced (by decide) mapped]
  change (do
    let index ← SparseIndex.build entries.length registryStride
      (rootAt ⟨start + 8, entries.length, none⟩ data)
    .ok ⟨start + 8, entries.length, index⟩ : Except Fault FlatRegistry) = _
  rw [built]
  rfl

end FlatRegistry

end Blaze
