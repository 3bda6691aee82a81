import Blaze.Storage.MappedTables

/-!
# What the length checks of tables accept

The readers of fixed-stride tables compare the length of a payload with the count
its header declares, in 64-bit arithmetic.  A count whose entries take `2 ^ 64` bytes
or more wraps in that product, and then the check accepts a payload that has fewer
entries than it declares.  For every other payload what was accepted can be read to
the end.
-/

namespace Blaze

open Bytes Fallible Search

variable {data payload : List UInt8} {start stop : Nat}

/-! ## The readers of whole blobs -/

/-- Reserve room for a number of items.  A vector takes at most `isize::MAX` bytes;
asking for more panics. -/
def withCapacity (size count : Nat) : Except Fault Unit :=
  if count * size < 2 ^ 63 then .ok () else .error .panic

/-- Decode a blob of entries with a fixed stride into a list. -/
def decodeEntries (blob entries : String) (width : Nat) (data : List UInt8) :
    Except Fault (List (Nat × Nat)) := do
  let count ← parseTable blob entries (8 + width) data 0 data.length
  -- both kinds of entries take 16 bytes in memory, the scope being padded
  withCapacity 16 count
  (List.range count).mapM fun i => do
    let base := (8 + i * (8 + width)) % 2 ^ 64
    .ok (← readLe 8 data base, ← readLe width data ((base + 8) % 2 ^ 64))

def decodePairs (data : List UInt8) : Except Fault (List (NodeId × NodeId)) :=
  decodeEntries "dsu blob" "pairs" 8 data

def decodeRegistry (data : List UInt8) : Except Fault (List (NodeId × ScopeId)) :=
  decodeEntries "registry blob" "entries" 4 data

/-- Every pair in stored order, as a full scan passes them on. -/
def MappedPairTable.forEach (t : MappedPairTable) (data : List UInt8) :
    Except Fault (List (NodeId × NodeId)) :=
  (List.range t.count).mapM fun i => do .ok (← t.keyAt data i, ← t.valueAt data i)

/-! ## Payloads that pass the check -/

/-- The count that the header of a payload declares. -/
def declaredCount (payload : List UInt8) : Nat :=
  getLe 8 payload 0

/-- The payload has a header, and the length that the header declares modulo `2 ^ 64`. -/
def HeaderMatches (stride : Nat) (payload : List UInt8) : Prop :=
  8 ≤ payload.length ∧ payload.length = (8 + declaredCount payload * stride) % 2 ^ 64

/-- The check accepts the payloads whose header matches, and refuses the others. -/
theorem parseTable_eq_ok_iff (sliced : slice data start stop = some payload)
    (table entries : String) (stride count : Nat) :
    parseTable table entries stride data start stop = .ok count ↔
      HeaderMatches stride payload ∧ declaredCount payload = count := by
  rw [parseTable, sliced]
  dsimp only
  rw [ensure_bind_eq_ok_iff, ensure_bind_eq_ok_iff, ← and_assoc]
  exact and_congr_right fun _ => ⟨Except.ok.inj, congrArg Except.ok⟩

theorem parseTable_ne_panic (sliced : slice data start stop = some payload)
    (table entries : String) (stride : Nat) :
    parseTable table entries stride data start stop ≠ .error .panic := by
  rw [parseTable, sliced]
  dsimp only
  unfold ensure
  split
  · change (if _ then _ else _ : Except Fault Unit) >>= _ ≠ _
    split <;> simp [Bind.bind, Except.bind]
  · simp [Bind.bind, Except.bind]

/-- Without wrapping, the declared count is the real one. -/
theorem HeaderMatches.length_eq {stride : Nat} (matched : HeaderMatches stride payload)
    (fits : 8 + declaredCount payload * stride < 2 ^ 64) :
    8 + declaredCount payload * stride = payload.length := by
  rw [matched.2, Nat.mod_eq_of_lt fits]

/-- Every entry of a payload with as many entries as declared lies inside of it. -/
theorem entry_inside (sliced : slice data start stop = some payload) {stride count : Nat}
    (exact : 8 + count * stride = payload.length) {i : Nat} (small : i < count) :
    start + 8 + i * stride + stride ≤ stop := by
  have bounds := bounds_of_slice sliced
  have length := length_of_slice sliced
  have entries : (i + 1) * stride ≤ count * stride := Nat.mul_le_mul_right stride small
  rw [Nat.succ_mul] at entries
  omega

/-- An entry inside of a mapping is read. -/
theorem exists_entry {width place : Nat} (positive : 0 < width) (mapped : data.length < 2 ^ 64)
    (inside : place + 8 + width ≤ data.length) :
    (∃ key, readLe 8 data (place % 2 ^ 64) = .ok key) ∧
      ∃ value, readLe width data ((place + 8) % 2 ^ 64) = .ok value := by
  rw [Nat.mod_eq_of_lt (by omega), Nat.mod_eq_of_lt (by omega), readLe, readLe,
    if_pos (by omega), if_pos inside]
  exact ⟨⟨_, rfl⟩, ⟨_, rfl⟩⟩

/-! ## Tables of pairs -/

namespace MappedPairTable

/-- Whatever its index, every search and the full scan of a table return. -/
structure Readable (t : MappedPairTable) (data : List UInt8) : Prop where
  lookup : ∀ index node, ∃ found, lookup { t with index := index } data node = .ok found
  lowerBound : ∀ node, ∃ point, t.lowerBound data node = .ok point
  valuesFor : ∀ key limit out, ∃ values, t.valuesFor data key limit out = .ok values
  forEach : ∃ pairs, t.forEach data = .ok pairs

/-- A payload is refused, or it has as many pairs as it declares and they can be read. -/
def Safe (data : List UInt8) (start stop : Nat) : Prop :=
  parse data start stop ≠ .error .panic ∧
    ∀ t, parse data start stop = .ok t →
      8 + t.count * pairStride = stop - start ∧
        (∀ i, i < t.count → t.start + i * pairStride + pairStride ≤ stop) ∧ t.Readable data

variable {t : MappedPairTable}

theorem parse_eq_ok_iff (sliced : slice data start stop = some payload) :
    parse data start stop = .ok t ↔
      HeaderMatches pairStride payload ∧ ⟨start + 8, declaredCount payload, none⟩ = t := by
  have accepts := parseTable_eq_ok_iff sliced "pair table" "pairs" pairStride
  unfold parse
  cases parsed : parseTable "pair table" "pairs" pairStride data start stop with
  | error fault =>
    constructor
    · intro impossible
      cases impossible
    · rintro ⟨matched, -⟩
      rw [(accepts _).mpr ⟨matched, rfl⟩] at parsed
      cases parsed
  | ok count =>
    obtain ⟨matched, rfl⟩ := (accepts count).mp parsed
    exact ⟨fun same => ⟨matched, Except.ok.inj same⟩, fun both => congrArg Except.ok both.2⟩

theorem parse_ne_panic (sliced : slice data start stop = some payload) :
    parse data start stop ≠ .error .panic := by
  have checked := parseTable_ne_panic sliced "pair table" "pairs" pairStride
  unfold parse
  cases parsed : parseTable "pair table" "pairs" pairStride data start stop with
  | error fault =>
    intro same
    cases same
    exact checked parsed
  | ok count => simp

/-- A table whose entries can be read can be searched and scanned. -/
theorem readable_of_reads
    (reads : ∀ i, i < t.count →
      (∃ key, t.keyAt data i = .ok key) ∧ ∃ value, t.valueAt data i = .ok value) :
    t.Readable data := by
  have bound : ∀ node, ∃ point, t.lowerBound data node = .ok point := by
    intro node
    apply exists_lowerBound _ 0
    intro i small
    obtain ⟨⟨key, read⟩, -⟩ := reads i small
    exact ⟨decide (key < node), by rw [read]; rfl⟩
  constructor
  · intro index node
    have narrowed :
        ((index.map fun ix => ix.narrowExact t.count node).getD (0, t.count)).2 ≤ t.count := by
      cases index with
      | none => exact le_rfl
      | some ix => exact ix.narrowExact_le t.count node
    have compares : ∀ i,
        i < ((index.map fun ix => ix.narrowExact t.count node).getD (0, t.count)).2 →
        ∃ answer, (do .ok (compare (← keyAt { t with index } data i) node) :
          Except Fault Ordering) = .ok answer := by
      intro i small
      obtain ⟨⟨key, read⟩, -⟩ := reads i (small.trans_le narrowed)
      have read : keyAt { t with index } data i = .ok key := read
      exact ⟨compare key node, by rw [read]; rfl⟩
    obtain ⟨found, returns, inside⟩ := exists_bisect compares
      ((index.map fun ix => ix.narrowExact t.count node).getD (0, t.count)).1
    unfold MappedPairTable.lookup
    dsimp only
    rw [returns]
    cases found with
    | none => exact ⟨none, rfl⟩
    | some i =>
      obtain ⟨-, value, read⟩ := reads i ((inside i rfl).trans_le narrowed)
      have read : valueAt { t with index } data i = .ok value := read
      exact ⟨some value, by simp [read]⟩
  · exact bound
  · intro key limit out
    unfold MappedPairTable.valuesFor
    split
    · exact ⟨out, rfl⟩
    · obtain ⟨point, found⟩ := bound key
      rw [found]
      apply exists_takeRun
      intro j least most
      exact reads j (by omega)
  · have scans : ∀ i ∈ List.range t.count,
        ∃ pair, (do .ok (← t.keyAt data i, ← t.valueAt data i) : Except Fault _) = .ok pair := by
      intro i member
      obtain ⟨⟨key, readKey⟩, ⟨value, readValue⟩⟩ := reads i (List.mem_range.mp member)
      exact ⟨(key, value), by rw [readKey, readValue]; rfl⟩
    obtain ⟨pairs, scanned, -⟩ := exists_mapM scans
    exact ⟨pairs, scanned⟩

/-- A payload is safe exactly when its declared count does not wrap. -/
theorem safe_iff (sliced : slice data start stop = some payload) (mapped : data.length < 2 ^ 64) :
    Safe data start stop ↔
      (HeaderMatches pairStride payload → 8 + declaredCount payload * pairStride < 2 ^ 64) := by
  have length := length_of_slice sliced
  constructor
  · rintro ⟨-, safe⟩ matched
    have exact := (safe _ ((parse_eq_ok_iff sliced).mpr ⟨matched, rfl⟩)).1
    dsimp only at exact
    rw [exact, ← length]
    exact (length_le_of_slice sliced).trans_lt mapped
  · intro fits
    refine ⟨parse_ne_panic sliced, fun t parsed => ?_⟩
    obtain ⟨matched, rfl⟩ := (parse_eq_ok_iff sliced).mp parsed
    have exact := matched.length_eq (fits matched)
    refine ⟨exact.trans length, fun i small => entry_inside sliced exact small, ?_⟩
    apply readable_of_reads
    intro i small
    have inside := (entry_inside sliced exact small).trans (bounds_of_slice sliced).2
    exact exists_entry (by decide) mapped inside

end MappedPairTable

/-! ## Flat registries -/

namespace FlatRegistry

/-- A payload is refused, or it has as many entries as it declares and they can be
read. -/
def Safe (data : List UInt8) (start stop : Nat) : Prop :=
  parse data start stop ≠ .error .panic ∧
    ∀ t, parse data start stop = .ok t →
      8 + t.count * registryStride = stop - start ∧
        (∀ i, i < t.count → t.start + i * registryStride + registryStride ≤ stop) ∧
        (∀ root, ∃ scopes, t.scopesFor data root = .ok scopes) ∧
        ∃ entries, t.iter data = .ok entries

variable {t : FlatRegistry}

/-- A parsed registry has the declared count. -/
theorem of_parse_eq_ok (sliced : slice data start stop = some payload)
    (parsed : parse data start stop = .ok t) :
    HeaderMatches registryStride payload ∧ t.start = start + 8 ∧
      t.count = declaredCount payload := by
  unfold parse at parsed
  cases checked : parseTable "registry table" "entries" registryStride data start stop with
  | error fault =>
    rw [checked] at parsed
    cases parsed
  | ok count =>
    obtain ⟨matched, rfl⟩ := (parseTable_eq_ok_iff sliced _ _ _ count).mp checked
    rw [checked, ok_bind] at parsed
    dsimp only at parsed
    cases built : SparseIndex.build (declaredCount payload) registryStride
      (rootAt ⟨start + 8, declaredCount payload, none⟩ data) with
    | error fault =>
      rw [built] at parsed
      cases parsed
    | ok index =>
      rw [built] at parsed
      cases parsed
      exact ⟨matched, rfl, rfl⟩

/-- An index is built from keys that can be read. -/
theorem exists_build {count stride : Nat} {keyAt : Nat → Except Fault NodeId}
    (positive : 0 < pageBytes / stride) (reads : ∀ i, i < count → ∃ key, keyAt i = .ok key) :
    ∃ index, SparseIndex.build count stride keyAt = .ok index := by
  unfold SparseIndex.build
  dsimp only
  split
  · exact ⟨none, rfl⟩
  · have samples : ∀ i ∈ (List.range ((count + pageBytes / stride - 1) / (pageBytes / stride))).map
        (· * (pageBytes / stride)), ∃ key, keyAt i = .ok key := by
      intro i member
      obtain ⟨b, small, rfl⟩ := List.mem_map.mp member
      exact reads _ ((lt_blocks_iff positive count b).mp (List.mem_range.mp small))
    obtain ⟨firstKeys, sampled, -⟩ := exists_mapM samples
    rw [sampled]
    exact ⟨_, rfl⟩

/-- A registry whose entries can be read answers every question. -/
theorem readable_of_reads
    (reads : ∀ i, i < t.count →
      (∃ root, t.rootAt data i = .ok root) ∧ ∃ scope, t.scopeAt data i = .ok scope) :
    (∀ root, ∃ scopes, t.scopesFor data root = .ok scopes) ∧
      ∃ entries, t.iter data = .ok entries := by
  constructor
  · intro root
    have narrowed :
        ((t.index.map fun ix => ix.narrowLowerBound t.count root).getD (0, t.count)).2 ≤
          t.count := by
      cases t.index with
      | none => exact le_rfl
      | some ix => exact Nat.min_le_right _ _
    have compares : ∀ i,
        i < ((t.index.map fun ix => ix.narrowLowerBound t.count root).getD (0, t.count)).2 →
        ∃ answer, (do .ok (decide ((← t.rootAt data i) < root)) : Except Fault Bool) =
          .ok answer := by
      intro i small
      obtain ⟨⟨other, read⟩, -⟩ := reads i (small.trans_le narrowed)
      exact ⟨decide (other < root), by rw [read]; rfl⟩
    obtain ⟨point, found⟩ := exists_lowerBound compares
      ((t.index.map fun ix => ix.narrowLowerBound t.count root).getD (0, t.count)).1
    unfold scopesFor
    dsimp only
    rw [found]
    apply exists_takeRun
    intro j least most
    exact reads j (by omega)
  · have scans : ∀ i ∈ List.range t.count,
        ∃ entry, (do .ok (← t.rootAt data i, ← t.scopeAt data i) : Except Fault _) =
          .ok entry := by
      intro i member
      obtain ⟨⟨root, readRoot⟩, ⟨scope, readScope⟩⟩ := reads i (List.mem_range.mp member)
      exact ⟨(root, scope), by rw [readRoot, readScope]; rfl⟩
    obtain ⟨entries, scanned, -⟩ := exists_mapM scans
    exact ⟨entries, scanned⟩

/-- Behind the length check a registry is not refused any more. -/
theorem parse_ne_refused (sliced : slice data start stop = some payload)
    (matched : HeaderMatches registryStride payload) (message : String) :
    parse data start stop ≠ .error (.refused message) := by
  unfold parse
  rw [(parseTable_eq_ok_iff sliced _ _ _ _).mpr ⟨matched, rfl⟩, ok_bind]
  unfold SparseIndex.build
  dsimp only
  split
  · simp
  · intro refused
    cases sampled : ((List.range ((declaredCount payload + pageBytes / registryStride - 1) /
        (pageBytes / registryStride))).map (· * (pageBytes / registryStride))).mapM
        (rootAt ⟨start + 8, declaredCount payload, none⟩ data) with
    | error fault =>
      rw [sampled] at refused
      cases refused
      obtain ⟨i, -, failed⟩ := exists_error_of_mapM sampled
      exact readLe_ne_refused message failed
    | ok firstKeys =>
      rw [sampled] at refused
      cases refused

/-- A payload is safe exactly when its declared count does not wrap. -/
theorem safe_iff (sliced : slice data start stop = some payload) (mapped : data.length < 2 ^ 64) :
    Safe data start stop ↔
      (HeaderMatches registryStride payload →
        8 + declaredCount payload * registryStride < 2 ^ 64) := by
  have length := length_of_slice sliced
  constructor
  · rintro ⟨noPanic, safe⟩ matched
    cases parsed : parse data start stop with
    | error fault =>
      cases fault with
      | refused message => exact absurd parsed (parse_ne_refused sliced matched message)
      | panic => exact absurd parsed noPanic
    | ok t =>
      have exact := (safe t parsed).1
      rw [(of_parse_eq_ok sliced parsed).2.2] at exact
      rw [exact, ← length]
      exact (length_le_of_slice sliced).trans_lt mapped
  · intro fits
    have reads : HeaderMatches registryStride payload → ∀ i, i < declaredCount payload →
        (∃ root, readLe 8 data ((start + 8 + i * registryStride) % 2 ^ 64) = .ok root) ∧
          ∃ scope, readLe 4 data ((start + 8 + i * registryStride + 8) % 2 ^ 64) = .ok scope := by
      intro matched i small
      have exact := matched.length_eq (fits matched)
      have inside := (entry_inside sliced exact small).trans (bounds_of_slice sliced).2
      exact exists_entry (by decide) mapped inside
    constructor
    · intro panics
      unfold parse at panics
      cases checked : parseTable "registry table" "entries" registryStride data start stop with
      | error fault =>
        rw [checked] at panics
        cases panics
        exact parseTable_ne_panic sliced _ _ _ checked
      | ok count =>
        obtain ⟨matched, rfl⟩ := (parseTable_eq_ok_iff sliced _ _ _ count).mp checked
        obtain ⟨index, built⟩ := exists_build (by decide : 0 < pageBytes / registryStride)
          fun i small => (reads matched i small).1
        rw [checked, ok_bind] at panics
        dsimp only at panics
        unfold rootAt at panics
        rw [built] at panics
        cases panics
    · intro t parsed
      obtain ⟨matched, start_eq, count_eq⟩ := of_parse_eq_ok sliced parsed
      have exact := matched.length_eq (fits matched)
      rw [start_eq, count_eq]
      refine ⟨exact.trans length, fun i small => entry_inside sliced exact small, ?_⟩
      apply readable_of_reads
      intro i small
      rw [count_eq] at small
      unfold rootAt scopeAt
      rw [start_eq]
      exact reads matched i small

end FlatRegistry

/-! ## Whole blobs -/

/-- A blob is refused, or decoded to as many entries as it declares. -/
def DecodesSafely (decode : List UInt8 → Except Fault (List (Nat × Nat))) (stride : Nat)
    (data : List UInt8) : Prop :=
  decode data ≠ .error .panic ∧
    ∀ entries, decode data = .ok entries →
      entries.length = declaredCount data ∧ 8 + entries.length * stride = data.length

/-- A blob is decoded safely exactly when room can be reserved for the declared count. -/
theorem decodeEntries_safe_iff {data : List UInt8} {width : Nat} (positive : 0 < width)
    (narrow : width ≤ 8) (mapped : data.length < 2 ^ 64) (blob entries : String) :
    DecodesSafely (decodeEntries blob entries width) (8 + width) data ↔
      (HeaderMatches (8 + width) data → declaredCount data * 16 < 2 ^ 63) := by
  have accepts := parseTable_eq_ok_iff (slice_self data) blob entries (8 + width)
  unfold DecodesSafely decodeEntries
  constructor
  · rintro ⟨noPanic, -⟩ matched
    rw [(accepts _).mpr ⟨matched, rfl⟩, ok_bind, withCapacity] at noPanic
    by_contra large
    rw [if_neg large] at noPanic
    exact noPanic rfl
  · intro room
    cases checked : parseTable blob entries (8 + width) data 0 data.length with
    | error fault =>
      constructor
      · intro panics
        cases panics
        exact parseTable_ne_panic (slice_self data) _ _ _ checked
      · intro decoded impossible
        cases impossible
    | ok count =>
      obtain ⟨matched, rfl⟩ := (accepts count).mp checked
      have few := room matched
      have wide : declaredCount data * (8 + width) ≤ declaredCount data * 16 :=
        Nat.mul_le_mul_left _ (by omega)
      have exact := matched.length_eq (by omega)
      have scans : ∀ i ∈ List.range (declaredCount data), ∃ entry, (do
          let base := (8 + i * (8 + width)) % 2 ^ 64
          .ok (← readLe 8 data base, ← readLe width data ((base + 8) % 2 ^ 64)) :
            Except Fault (Nat × Nat)) = .ok entry := by
        intro i member
        have inside := entry_inside (slice_self data) exact (List.mem_range.mp member)
        rw [Nat.zero_add] at inside
        obtain ⟨⟨key, readKey⟩, ⟨value, readValue⟩⟩ := exists_entry positive mapped
          ((Nat.add_assoc _ _ _).trans_le inside)
        rw [← Nat.mod_add_mod] at readValue
        exact ⟨(key, value), by dsimp only; rw [readKey, readValue]; rfl⟩
      obtain ⟨decoded, scanned, length⟩ := exists_mapM scans
      rw [List.length_range] at length
      rw [ok_bind, withCapacity, if_pos few, ok_bind, scanned]
      refine ⟨by simp, fun result same => ?_⟩
      cases same
      exact ⟨length, by rw [length]; exact exact⟩

/-! ## All four readers -/

/-- The readers of a payload are safe exactly when a header that matches modulo
`2 ^ 64` declares a count whose entries take fewer than `2 ^ 64` bytes, and the decoder of
the registry, whose entries are wider in memory than in the blob, when it can also
reserve room for them. -/
theorem table_readers_safe_iff {data payload : List UInt8} {start stop : Nat}
    (short : data.length < 2 ^ 63) (sliced : slice data start stop = some payload) :
    (MappedPairTable.Safe data start stop ↔
        (HeaderMatches 16 payload → declaredCount payload < 2 ^ 60)) ∧
      (FlatRegistry.Safe data start stop ↔
        (HeaderMatches 12 payload → 8 + declaredCount payload * 12 < 2 ^ 64)) ∧
      (DecodesSafely decodePairs 16 payload ↔
        (HeaderMatches 16 payload → declaredCount payload < 2 ^ 60)) ∧
      (DecodesSafely decodeRegistry 12 payload ↔
        (HeaderMatches 12 payload → declaredCount payload < 2 ^ 59)) := by
  have mapped : data.length < 2 ^ 64 := short.trans (by decide)
  have shortPayload := (length_le_of_slice sliced).trans_lt short
  have mappedPayload := (length_le_of_slice sliced).trans_lt mapped
  have few : ∀ count : Nat, 8 + count * pairStride < 2 ^ 64 ↔ count < 2 ^ 60 := by
    intro count
    unfold pairStride
    omega
  refine ⟨?_, FlatRegistry.safe_iff sliced mapped, ?_, ?_⟩
  · rw [MappedPairTable.safe_iff sliced mapped, few]
    rfl
  · refine (decodeEntries_safe_iff (by decide) le_rfl mappedPayload _ _).trans ?_
    apply forall_congr'
    intro matched
    have length := matched.2
    change payload.length = (8 + declaredCount payload * 16) % 2 ^ 64 at length
    omega
  · refine (decodeEntries_safe_iff (by decide) (by decide) mappedPayload _ _).trans ?_
    apply forall_congr'
    intro matched
    omega

/-- Three pairs and three registry entries, each table behind another byte. -/
theorem table_readers_safe_on_three_entries :
    let pairs := tableBytes 8 [(2, 1), (4, 3), (9, 3)]
    let entries := tableBytes 4 [(1, 7), (1, 8), (3, 7)]
    (MappedPairTable.parse (0 :: pairs) 1 57 = .ok ⟨9, 3, none⟩ ∧
        decodePairs pairs = .ok [(2, 1), (4, 3), (9, 3)] ∧
        MappedPairTable.Safe (0 :: pairs) 1 57 ∧ DecodesSafely decodePairs 16 pairs) ∧
      (FlatRegistry.parse (0 :: entries) 1 45).isOk ∧
        decodeRegistry entries = .ok [(1, 7), (1, 8), (3, 7)] ∧
        FlatRegistry.Safe (0 :: entries) 1 45 ∧ DecodesSafely decodeRegistry 12 entries := by
  intro pairs entries
  obtain ⟨mapped, -, decoded, -⟩ :=
    @table_readers_safe_iff (0 :: pairs) pairs 1 57 (by decide) (by decide +kernel)
  obtain ⟨-, registered, -, decodedRegistry⟩ :=
    @table_readers_safe_iff (0 :: entries) entries 1 45 (by decide) (by decide +kernel)
  exact ⟨⟨by rfl, by decide +kernel, mapped.mpr fun _ => by decide +kernel,
    decoded.mpr fun _ => by decide +kernel⟩, by decide +kernel, by decide +kernel,
    registered.mpr fun _ => by decide +kernel, decodedRegistry.mpr fun _ => by decide +kernel⟩

/-- Eight bytes that declare `2 ^ 60` pairs are accepted as a table, whose first lookup
reads outside of the mapping; decoding them, or `2 ^ 62` registry entries, panics. -/
theorem wrapped_count_is_accepted :
    MappedPairTable.parse [0, 0, 0, 0, 0, 0, 0, 0x10] 0 8 = .ok ⟨8, 2 ^ 60, none⟩ ∧
      8 + 2 ^ 60 * pairStride ≠ ([0, 0, 0, 0, 0, 0, 0, 0x10] : List UInt8).length ∧
      MappedPairTable.lookup ⟨8, 2 ^ 60, none⟩ [0, 0, 0, 0, 0, 0, 0, 0x10] 0 = .error .panic ∧
      decodePairs [0, 0, 0, 0, 0, 0, 0, 0x10] = .error .panic ∧
      decodeRegistry [0, 0, 0, 0, 0, 0, 0, 0x40] = .error .panic := by
  refine ⟨by rfl, by decide, ?_, by rfl, by rfl⟩
  unfold MappedPairTable.lookup
  dsimp only [Option.map_none, Option.getD_none]
  rw [bisect, if_pos (by decide)]
  rfl

end Blaze
