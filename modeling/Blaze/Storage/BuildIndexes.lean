import Blaze.Storage.MappedTables

/-!
# Building the sparse indexes of a file

When a base is opened, the first keys of the blocks of all its tables are collected in
one pass: a window slides forward over the file in chunks, and each sample is taken
when the window has its bytes.  The indexes that come out of it make a lookup in any of
the tables a linear search of that table.
-/

namespace Blaze

open List Bytes Fallible Search

variable {file buf : List UInt8} {spanEnd baseOff id : Nat} {s : IndexScan} {t : MappedPairTable}
  {tables : List MappedPairTable}

/-- Bytes that one read of the pass takes at most. -/
def scanChunk : Nat := 2 ^ 20

/-- Entries of a block of a table of pairs. -/
def pairBlock : Nat := pageBytes / pairStride

/-! ## The pass over the file -/

/-- What the pass has of the file, and what it has taken from it: the filled part of the
buffer and where it starts, the cursor of the file, the samples that are left with the
ids of their tables, and the keys of each table. -/
structure IndexScan where
  buf : List UInt8
  baseOff : Nat
  filled : Nat
  cursor : Nat
  wanted : List (Nat × Nat)
  keys : List (List NodeId)

namespace IndexScan

/-- Take the samples whose bytes are in the buffer. -/
def takeSamples (buf : List UInt8) (baseOff filled : Nat) :
    List (Nat × Nat) → List (List NodeId) → Except Fault (List (Nat × Nat) × List (List NodeId))
  | [], keys => .ok ([], keys)
  | (off, id) :: wanted, keys =>
      if off + 8 > baseOff + filled then
        .ok ((off, id) :: wanted, keys)
      else if off < baseOff then
        -- the place in the buffer would be negative
        .error .panic
      else do
        let key ← readLe 8 buf (off - baseOff)
        takeSamples buf baseOff filled wanted (keys.modify id (· ++ [key]))

/-- Slide the window until every sample is taken.  The last bytes of the window are kept,
so that a sample across two reads is still one value. -/
def run (file : List UInt8) (chunk spanEnd : Nat) (s : IndexScan) :
    Except Fault (List (List NodeId)) :=
  if s.wanted = [] then
    .ok s.keys
  else
    let keep := min s.filled 8
    let tail := (s.buf.drop (s.filled - keep)).take keep
    let baseOff := s.baseOff + (s.filled - keep)
    let want := min (spanEnd - (baseOff + keep)) (chunk - keep)
    if want = 0 then
      .ok s.keys
    else
      match slice file s.cursor (s.cursor + want) with
      | none => .error (.refused "failed to fill whole buffer")
      | some bytes => do
          let filled := keep + want
          let buf := tail ++ bytes
          let taken ← takeSamples buf baseOff filled s.wanted s.keys
          run file chunk spanEnd ⟨buf, baseOff, filled, s.cursor + want, taken.1, taken.2⟩
termination_by spanEnd - (s.baseOff + s.filled)
decreasing_by
  omega

end IndexScan

/-- The samples that a table needs; none when it fits inside one block. -/
def MappedPairTable.samples (t : MappedPairTable) : Nat :=
  if t.count ≤ pairBlock then 0 else (t.count + pairBlock - 1) / pairBlock

/-- The sample points of tables that are numbered from one on, with their numbers. -/
def samplesFrom (offset : Nat) (tables : List MappedPairTable) : List (Nat × Nat) :=
  (tables.zipIdx offset).flatMap fun table =>
    (List.range table.1.samples).map fun i => (table.1.start + i * pageBytes, table.2)

/-- Every sample point of the tables, in file order. -/
def wantedSamples (tables : List MappedPairTable) : List (Nat × Nat) :=
  (samplesFrom 0 tables).insertionSort fun first second => toLex first ≤ toLex second

/-- Give a table its index, when all of its samples were taken. -/
def MappedPairTable.withIndex (t : MappedPairTable) (firstKeys : List NodeId) : MappedPairTable :=
  if firstKeys.length = t.samples ∧ t.samples > 0 then
    { t with index := some ⟨pairBlock, firstKeys⟩ }
  else
    t

/-- The tables of a base with their sparse indexes, from one pass over its file. -/
def buildIndexes (file : List UInt8) (tables : List MappedPairTable) :
    Except Fault (List MappedPairTable) :=
  let wanted := wantedSamples tables
  match wanted.head?, wanted.getLast? with
  | some first, some last => do
      let keys ← IndexScan.run file (max scanChunk 16) (last.1 + 8)
        ⟨[], first.1, 0, first.1, wanted, tables.map fun _ => []⟩
      .ok (List.zipWith MappedPairTable.withIndex tables keys)
  | _, _ => .ok tables

/-! ## What the pass collects -/

namespace IndexScan

/-- The samples in the order of the file, each with the key it stands for. -/
def collected (file : List UInt8) (wanted : List (Nat × Nat)) (keys : List (List NodeId)) :
    List (List NodeId) :=
  wanted.foldl (fun keys sample => keys.modify sample.2 (· ++ [getLe 8 file sample.1])) keys

/-- A number in the window is the one in the file. -/
theorem readLe_window {off : Nat} (holds : Holds file baseOff buf) (least : baseOff ≤ off)
    (inside : off + 8 ≤ baseOff + buf.length) :
    readLe 8 buf (off - baseOff) = .ok (getLe 8 file off) := by
  obtain ⟨rest, split⟩ := holds
  have place : file.drop off = (buf ++ rest).drop (off - baseOff) := by
    rw [split, drop_drop, Nat.add_sub_cancel' least]
  rw [readLe, if_pos (by omega), getLe, getLe, place, drop_append_of_le_length (by omega),
    take_append_of_le_length (by rw [length_drop]; omega)]

/-- Taking samples leaves the ones that reach behind the window. -/
theorem takeSamples_eq (holds : Holds file baseOff buf) {wanted : List (Nat × Nat)}
    (sorted : wanted.Pairwise fun first second => first.1 ≤ second.1)
    (least : ∀ sample ∈ wanted, baseOff ≤ sample.1) (keys : List (List NodeId)) :
    ∃ taken left, wanted = taken ++ left ∧
      takeSamples buf baseOff buf.length wanted keys = .ok (left, collected file taken keys) ∧
      ∀ sample ∈ left, baseOff + buf.length < sample.1 + 8 := by
  induction wanted generalizing keys with
  | nil => exact ⟨[], [], rfl, rfl, by simp⟩
  | cons sample wanted ih =>
    obtain ⟨above, sorted⟩ := pairwise_cons.mp sorted
    rw [takeSamples]
    by_cases behind : sample.1 + 8 > baseOff + buf.length
    · refine ⟨[], sample :: wanted, rfl, if_pos behind, fun other member => ?_⟩
      rcases mem_cons.mp member with rfl | later
      · exact behind
      · exact behind.trans_le (Nat.add_le_add_right (above other later) 8)
    · have start := least sample mem_cons_self
      obtain ⟨taken, left, split, took, rest⟩ := ih sorted
        (fun other member => least other (mem_cons_of_mem _ member))
        (keys.modify sample.2 (· ++ [getLe 8 file sample.1]))
      refine ⟨sample :: taken, left, by rw [split]; rfl, ?_, rest⟩
      rw [if_neg behind, if_neg (not_lt.mpr start), readLe_window holds start (not_lt.mp behind),
        ok_bind, took]
      rfl

/-- What holds before every turn of the pass: the buffer is a part of the file up to the
cursor, the samples that are left are ascending, start in the part of the buffer that is
kept and end behind it, but inside of the span. -/
structure Sliding (file : List UInt8) (spanEnd : Nat) (s : IndexScan) : Prop where
  holds : Holds file s.baseOff s.buf
  filled : s.buf.length = s.filled
  cursor : s.cursor = s.baseOff + s.filled
  sorted : s.wanted.Pairwise fun first second => first.1 ≤ second.1
  starts : ∀ sample ∈ s.wanted, s.baseOff + (s.filled - 8) ≤ sample.1
  ends : ∀ sample ∈ s.wanted, s.baseOff + s.filled < sample.1 + 8
  inside : ∀ sample ∈ s.wanted, sample.1 + 8 ≤ spanEnd

theorem Sliding.cursor_eq (sliding : s.Sliding file spanEnd) :
    s.baseOff + (s.filled - min s.filled 8) + min s.filled 8 = s.cursor := by
  rw [sliding.cursor]
  omega

/-- While samples are left, the span is not read to its end. -/
theorem Sliding.cursor_lt (sliding : s.Sliding file spanEnd) (some : s.wanted ≠ []) :
    s.cursor < spanEnd := by
  obtain ⟨sample, member⟩ := exists_mem_of_ne_nil _ some
  rw [sliding.cursor]
  exact (sliding.ends sample member).trans_le (sliding.inside sample member)

/-- The window after a read: the bytes that were kept and the new ones. -/
theorem Sliding.window (sliding : s.Sliding file spanEnd) {want : Nat} {bytes : List UInt8}
    (read : slice file s.cursor (s.cursor + want) = some bytes) :
    Holds file (s.baseOff + (s.filled - min s.filled 8))
        ((s.buf.drop (s.filled - min s.filled 8)).take (min s.filled 8) ++ bytes) ∧
      ((s.buf.drop (s.filled - min s.filled 8)).take (min s.filled 8) ++ bytes).length =
        min s.filled 8 + want := by
  have filled := sliding.filled
  have kept : (s.buf.drop (s.filled - min s.filled 8)).length = min s.filled 8 := by
    rw [length_drop]
    omega
  have tail : Holds file (s.baseOff + (s.filled - min s.filled 8))
      (s.buf.drop (s.filled - min s.filled 8)) := sliding.holds.drop (by omega)
  rw [take_of_length_le kept.le, holds_append, length_append, kept, sliding.cursor_eq,
    length_of_slice read, Nat.add_sub_cancel_left]
  exact ⟨⟨tail, holds_of_slice read⟩, rfl⟩

/-- The pass takes every sample, whatever the chunk size. -/
theorem run_eq {chunk : Nat} (wide : 8 < chunk) (whole : spanEnd ≤ file.length)
    (sliding : s.Sliding file spanEnd) :
    run file chunk spanEnd s = .ok (collected file s.wanted s.keys) := by
  fun_induction run file chunk spanEnd s with
  | case1 s done =>
    rw [done]
    rfl
  | case2 s some keep baseOff want ended =>
    -- a sample that is left ends behind the cursor, so there is more to read
    have more := sliding.cursor_lt some
    have place : baseOff + keep = s.cursor := sliding.cursor_eq
    exfalso
    simp only [want, place] at ended
    omega
  | case3 s some keep baseOff want more missing =>
    -- the span ends inside of the file
    have before := sliding.cursor_lt some
    have place : baseOff + keep = s.cursor := sliding.cursor_eq
    have short : want ≤ spanEnd - s.cursor := place ▸ Nat.min_le_left _ _
    rw [slice, if_pos ⟨Nat.le_add_right _ _, by omega⟩] at missing
    cases missing
  | case4 s some keep tail baseOff want more bytes read filled buf ih =>
    obtain ⟨holds, length⟩ := sliding.window read
    have starts : ∀ sample ∈ s.wanted, baseOff ≤ sample.1 := by
      intro sample member
      have start := sliding.starts sample member
      simp only [baseOff, keep]
      omega
    obtain ⟨taken, left, split, took, behind⟩ :=
      takeSamples_eq holds sliding.sorted starts s.keys
    rw [length] at took behind
    have place : baseOff + keep = s.cursor := sliding.cursor_eq
    have inLeft : ∀ sample ∈ left, sample ∈ s.wanted := fun sample member =>
      split ▸ mem_append_right taken member
    have next := ih (left, collected file taken s.keys) {
      holds := holds
      filled := length
      cursor := by
        change s.cursor + want = baseOff + (keep + want)
        omega
      sorted := by
        have sorted := sliding.sorted
        rw [split] at sorted
        exact (pairwise_append.mp sorted).2.1
      starts := fun sample member => by
        have start := starts sample (inLeft sample member)
        have stop : baseOff + filled < sample.1 + 8 := behind sample member
        change baseOff + (filled - 8) ≤ sample.1
        omega
      ends := behind
      inside := fun sample member => sliding.inside sample (inLeft sample member) }
    have took : takeSamples buf baseOff filled s.wanted s.keys =
      .ok (left, collected file taken s.keys) := took
    rw [took, ok_bind, next, split, collected, collected, collected, foldl_append]

theorem length_collected (file : List UInt8) (wanted : List (Nat × Nat))
    (keys : List (List NodeId)) : (collected file wanted keys).length = keys.length := by
  induction wanted generalizing keys with
  | nil => rfl
  | cons sample wanted ih =>
    rw [collected, foldl_cons]
    exact (ih _).trans (length_modify _ _ _)

/-- Every table gets the keys of its own samples, in file order. -/
theorem collected_getElem? (file : List UInt8) (wanted : List (Nat × Nat))
    (keys : List (List NodeId)) (id : Nat) :
    (collected file wanted keys)[id]? = keys[id]?.map fun own =>
      own ++ (wanted.filter fun sample => sample.2 = id).map fun sample =>
        getLe 8 file sample.1 := by
  induction wanted generalizing keys with
  | nil => simp [collected]
  | cons sample wanted ih =>
    rw [collected, foldl_cons]
    change (collected file wanted _)[id]? = _
    rw [ih, getElem?_modify]
    by_cases same : sample.2 = id
    · simp [same, Function.comp_def]
    · simp [same]

end IndexScan

/-! ## The samples of a table -/

theorem lt_samples_iff (some : 0 < t.samples) (i : Nat) :
    i < t.samples ↔ i * pairBlock < t.count := by
  unfold MappedPairTable.samples at some ⊢
  split at some
  · cases some
  · next large =>
      rw [if_neg large]
      exact lt_blocks_iff (by decide) t.count i

/-- The samples with the number of a table are its own. -/
theorem filter_samplesFrom (at_id : tables[id]? = some t) (offset : Nat) :
    ((samplesFrom offset tables).filter fun sample => sample.2 = offset + id) =
      (List.range t.samples).map fun i => (t.start + i * pageBytes, offset + id) := by
  induction tables generalizing id offset with
  | nil => cases at_id
  | cons first tables ih =>
    rw [samplesFrom, zipIdx_cons, flatMap_cons, filter_append]
    change _ ++ (samplesFrom (offset + 1) tables).filter _ = _
    cases id with
    | zero =>
      cases at_id
      have others : ((samplesFrom (offset + 1) tables).filter fun sample =>
          sample.2 = offset + 0) = [] := by
        rw [filter_eq_nil_iff]
        intro sample member
        obtain ⟨table, numbered, own⟩ := mem_flatMap.mp member
        obtain ⟨i, -, rfl⟩ := mem_map.mp own
        have later := le_snd_of_mem_zipIdx numbered
        simp only [decide_eq_true_eq]
        omega
      rw [others, append_nil]
      refine filter_eq_self.mpr fun sample own => ?_
      obtain ⟨i, -, rfl⟩ := mem_map.mp own
      simp
    | succ id =>
      have mine : (((List.range first.samples).map fun i =>
          (first.start + i * pageBytes, offset)).filter fun sample =>
            sample.2 = offset + (id + 1)) = [] := by
        rw [filter_eq_nil_iff]
        intro sample own
        obtain ⟨i, -, rfl⟩ := mem_map.mp own
        simp
      have place : offset + (id + 1) = offset + 1 + id := by omega
      rw [mine, nil_append, place]
      exact ih at_id (offset + 1)

/-- In file order, too, the samples of a table are those of its blocks. -/
theorem filter_wantedSamples (at_id : tables[id]? = some t) :
    ((wantedSamples tables).filter fun sample => sample.2 = id) =
      (List.range t.samples).map fun i => (t.start + i * pageBytes, id) := by
  have own := filter_samplesFrom at_id 0
  rw [Nat.zero_add] at own
  have sorted := (pairwise_insertionSort (fun first second => toLex first ≤ toLex second)
    (samplesFrom 0 tables)).filter fun sample => sample.2 = id
  have same := (perm_insertionSort (fun first second => toLex first ≤ toLex second)
    (samplesFrom 0 tables)).filter fun sample => sample.2 = id
  rw [own] at same
  have ascending : ((List.range t.samples).map fun i => (t.start + i * pageBytes, id)).Pairwise
      fun first second => toLex first ≤ toLex second := by
    rw [pairwise_map]
    refine pairwise_lt_range.imp fun less => ?_
    have further := (Nat.mul_lt_mul_right (by decide : 0 < pageBytes)).mpr less
    exact Prod.Lex.toLex_le_toLex.mpr (Or.inl (Nat.add_lt_add_left further t.start))
  exact List.Perm.eq_of_pairwise (fun first second _ _ le ge => toLex.injective (le_antisymm le ge))
    sorted ascending same

/-- The samples of tables that are in a file. -/
theorem mem_wantedSamples {sample : Nat × Nat} (member : sample ∈ wantedSamples tables) :
    ∃ t ∈ tables, ∃ i < t.samples, sample.1 = t.start + i * pageBytes := by
  have unsorted := (mem_insertionSort _).mp member
  obtain ⟨table, numbered, own⟩ := mem_flatMap.mp unsorted
  obtain ⟨i, inside, rfl⟩ := mem_map.mp own
  exact ⟨table.1, fst_mem_of_mem_zipIdx numbered, i, mem_range.mp inside, rfl⟩

section Build

variable {pairs : List (NodeId × NodeId)}

/-- A sample is the first key of its block. -/
theorem MappedPairTable.Stores.sample_eq (stores : t.Stores file pairs) {i : Nat}
    (inside : i < t.samples) :
    t.start + i * pageBytes + 8 ≤ file.length ∧
      (pairs.map Prod.fst)[i * pairBlock]? = some (getLe 8 file (t.start + i * pageBytes)) := by
  have bound := (lt_samples_iff (Nat.zero_lt_of_lt inside) i).mp inside
  rw [stores.count] at bound
  have at_i := getElem?_eq_getElem bound
  have read := (stores.reads at_i).1
  have stride : i * pairBlock * pairStride = i * pageBytes := Nat.mul_assoc i pairBlock pairStride
  have inside := (stores.tabled.entry_holds at_i).2
  change t.start + i * pairBlock * pairStride + 8 + 8 ≤ file.length at inside
  have mapped := stores.tabled.mapped
  rw [stride] at inside
  rw [keyAt, stride, Nat.mod_eq_of_lt (by omega), readLe] at read
  split at read
  · next within =>
      refine ⟨within, ?_⟩
      rw [getElem?_map, getElem?_eq_getElem bound, Except.ok.inj read]
      rfl
  · cases read

/-- The index of pairs: the first key of each of their blocks, when there is more than
one. -/
def sparseIndexOf (pairs : List (NodeId × NodeId)) : Option SparseIndex :=
  if pairs.length ≤ pairBlock then
    none
  else
    some ⟨pairBlock, (List.range ((pairs.length + pairBlock - 1) / pairBlock)).map fun i =>
      (pairs.map Prod.fst).getD (i * pairBlock) 0⟩

theorem sparseIndexOf_samples (pairs : List (NodeId × NodeId)) :
    ∀ ix ∈ sparseIndexOf pairs, ix.Samples (pairs.map Prod.fst) := by
  intro ix isIndex
  unfold sparseIndexOf at isIndex
  split at isIndex
  · cases isIndex
  · cases isIndex
    refine ⟨(by decide : 0 < pairBlock), fun i => ?_⟩
    have blocks := lt_blocks_iff (by decide : 0 < pairBlock) pairs.length i
    dsimp only
    by_cases inside : i < (pairs.length + pairBlock - 1) / pairBlock
    · have bound : i * pairBlock < (pairs.map Prod.fst).length := by
        rw [length_map]
        exact blocks.mp inside
      rw [getElem?_map, getElem?_range inside, getElem?_eq_getElem bound,
        Option.map_some, getD_eq_getElem _ _ bound]
    · have beyond := not_lt.mp (mt blocks.mpr inside)
      rw [getElem?_eq_none (by simpa using not_lt.mp inside),
        getElem?_eq_none (by simpa using beyond)]

/-- A table that fits inside one block has no samples. -/
theorem MappedPairTable.samples_eq_zero_iff (t : MappedPairTable) :
    t.samples = 0 ↔ t.count ≤ pairBlock := by
  unfold MappedPairTable.samples
  constructor
  · intro none
    by_contra large
    rw [if_neg large] at none
    have first := lt_blocks_iff (by decide : 0 < pairBlock) t.count 0
    omega
  · exact fun small => if_pos small

/-- With its own samples, a table is indexed by the first keys of its blocks. -/
theorem MappedPairTable.Stores.withIndex (stores : t.Stores file pairs) (fresh : t.index = none) :
    (t.withIndex ((List.range t.samples).map fun i =>
        getLe 8 file (t.start + i * pageBytes))).Stores file pairs ∧
      (t.withIndex ((List.range t.samples).map fun i =>
        getLe 8 file (t.start + i * pageBytes))).index = sparseIndexOf pairs := by
  have none := t.samples_eq_zero_iff
  rw [stores.count] at none
  unfold MappedPairTable.withIndex sparseIndexOf
  split
  · next some =>
      have large : ¬ pairs.length ≤ pairBlock := fun small => some.2.ne' (none.mpr small)
      have count : t.samples = (pairs.length + pairBlock - 1) / pairBlock := by
        unfold MappedPairTable.samples
        rw [stores.count, if_neg large]
      refine ⟨⟨stores.count, stores.tabled⟩, ?_⟩
      have keys : ((List.range t.samples).map fun i => getLe 8 file (t.start + i * pageBytes)) =
          (List.range t.samples).map fun i => (pairs.map Prod.fst).getD (i * pairBlock) 0 := by
        apply map_congr_left
        intro i member
        rw [getD_eq_getElem?_getD, (stores.sample_eq (mem_range.mp member)).2]
        rfl
      rw [if_neg large, ← count, keys]
  · next unsampled =>
      have small : pairs.length ≤ pairBlock := by
        rw [← none]
        by_contra some
        exact unsampled ⟨by simp, Nat.pos_of_ne_zero some⟩
      refine ⟨stores, ?_⟩
      rw [if_pos small]
      exact fresh

/-- The pass starts at the first sample. -/
theorem sliding_start {first last : Nat × Nat} (head : (wantedSamples tables).head? = some first)
    (final : (wantedSamples tables).getLast? = some last) (keys : List (List NodeId)) :
    IndexScan.Sliding file (last.1 + 8) ⟨[], first.1, 0, first.1, wantedSamples tables, keys⟩ := by
  have sorted : (wantedSamples tables).Pairwise fun first second => first.1 ≤ second.1 :=
    (pairwise_insertionSort (fun first second => toLex first ≤ toLex second)
      (samplesFrom 0 tables)).imp fun le => Prod.Lex.monotone_fst _ _ le
  have least : ∀ sample ∈ wantedSamples tables, first.1 ≤ sample.1 := by
    intro sample member
    obtain ⟨rest, split⟩ := head?_eq_some_iff.mp head
    rw [split] at sorted member
    rcases mem_cons.mp member with rfl | later
    · exact le_rfl
    · exact (pairwise_cons.mp sorted).1 sample later
  have most : ∀ sample ∈ wantedSamples tables, sample.1 ≤ last.1 := by
    intro sample member
    obtain ⟨init, split⟩ := getLast?_eq_some_iff.mp final
    rw [split] at sorted member
    rcases mem_append.mp member with before | isLast
    · exact (pairwise_append.mp sorted).2.2 sample before last mem_cons_self
    · rw [mem_singleton.mp isLast]
  exact {
    holds := nil_prefix
    filled := rfl
    cursor := rfl
    sorted := sorted
    starts := least
    ends := fun sample member =>
      (least sample member).trans_lt (Nat.lt_add_of_pos_right (by decide))
    inside := fun sample member => Nat.add_le_add_right (most sample member) 8 }

/-- The pass keeps every table and gives it an index of its own keys. -/
theorem buildIndexes_eq {stored : List (List (NodeId × NodeId))}
    (stores : List.Forall₂ (fun t pairs => t.Stores file pairs ∧ t.index = none) tables stored) :
    ∃ built, buildIndexes file tables = .ok built ∧
      List.Forall₂ (fun t pairs => MappedPairTable.Stores t file pairs ∧
        t.index = sparseIndexOf pairs) built stored := by
  obtain ⟨count, each⟩ := forall₂_iff_get.mp stores
  unfold buildIndexes
  dsimp only
  split
  · next first last head final =>
      have whole : last.1 + 8 ≤ file.length := by
        obtain ⟨t, member, i, inside, place⟩ := mem_wantedSamples (mem_of_getLast? final)
        obtain ⟨id, bound, rfl⟩ := getElem_of_mem member
        rw [place]
        exact ((each id bound (count ▸ bound)).1.sample_eq inside).1
      rw [IndexScan.run_eq (by decide) whole (sliding_start head final _), ok_bind]
      have length := IndexScan.length_collected file (wantedSamples tables) (tables.map fun _ => [])
      rw [length_map] at length
      refine ⟨_, rfl, forall₂_iff_get.mpr ⟨?_, fun id inside inside' => ?_⟩⟩
      · rw [length_zipWith, length, Nat.min_self, count]
      · have bound : id < tables.length := count ▸ inside'
        have own := IndexScan.collected_getElem? file (wantedSamples tables)
          (tables.map fun _ => []) id
        rw [filter_wantedSamples (getElem?_eq_getElem bound), getElem?_map,
          getElem?_eq_getElem bound, map_map, getElem?_eq_getElem (length ▸ bound)]
          at own
        rw [get_eq_getElem, getElem_zipWith, Option.some.inj own]
        exact (each id bound inside').1.withIndex (each id bound inside').2
  · next unwanted =>
      have empty : wantedSamples tables = [] := by
        cases wanted : wantedSamples tables with
        | nil => rfl
        | cons first rest =>
          rw [wanted] at unwanted
          exact absurd (getLast?_eq_getLast_of_ne_nil (cons_ne_nil first rest))
            (unwanted first _ rfl)
      refine ⟨tables, rfl, forall₂_iff_get.mpr ⟨count, fun id inside inside' => ?_⟩⟩
      obtain ⟨held, fresh⟩ := each id inside inside'
      have own := filter_wantedSamples (getElem?_eq_getElem inside)
      rw [empty, filter_nil] at own
      have unsampled := range_eq_nil.mp (map_eq_nil_iff.mp own.symm)
      refine ⟨held, fresh.trans ?_⟩
      rw [sparseIndexOf, if_pos]
      rw [← held.count]
      exact (MappedPairTable.samples_eq_zero_iff _).mp unsampled

end Build

/-- For any pair tables with ascending keys anywhere in a file, the sparse indexes that one
pass over the file builds make every lookup in every table a linear search of it. -/
theorem indexed_lookup_eq {file : List UInt8} (mapped : file.length < 2 ^ 64)
    {placed : List (Nat × List (NodeId × NodeId))}
    (holds : ∀ table ∈ placed, slice file table.1 (table.1 + (tableBytes 8 table.2).length) =
      some (tableBytes 8 table.2))
    (ids : ∀ table ∈ placed, ∀ pair ∈ table.2, pair.1 < 2 ^ 64 ∧ pair.2 < 2 ^ 64)
    (ascending : ∀ table ∈ placed, (table.2.map Prod.fst).Pairwise (· < ·)) :
    ∃ tables built,
      (placed.mapM fun table =>
        MappedPairTable.parse file table.1 (table.1 + (tableBytes 8 table.2).length)) =
          .ok tables ∧
      buildIndexes file tables = .ok built ∧
      List.Forall₂ (fun table t => ∀ node,
        MappedPairTable.lookup t file node = .ok (table.2.lookup node)) placed built := by
  have parsed : (placed.mapM fun table =>
      MappedPairTable.parse file table.1 (table.1 + (tableBytes 8 table.2).length)) =
        .ok (placed.map fun table => ⟨table.1 + 8, table.2.length, none⟩) := by
    apply mapM_eq_ok
    intro table member
    exact MappedPairTable.parse_eq (holds table member) mapped
  have stores : List.Forall₂ (fun t pairs => MappedPairTable.Stores t file pairs ∧ t.index = none)
      (placed.map fun table => ⟨table.1 + 8, table.2.length, none⟩) (placed.map Prod.snd) := by
    rw [forall₂_map_left_iff, forall₂_map_right_iff, forall₂_same]
    intro table member
    exact ⟨MappedPairTable.stores_of_slice (holds table member) mapped
      (fun pair inside => (ids table member pair inside).1)
      (fun pair inside => (ids table member pair inside).2), rfl⟩
  obtain ⟨built, same, indexed⟩ := buildIndexes_eq stores
  refine ⟨_, built, parsed, same, ?_⟩
  rw [forall₂_map_right_iff] at indexed
  have both := (forall₂_and_left _ _).mpr ⟨ascending, indexed.flip⟩
  refine both.imp fun table t held node => held.2.1.lookup_eq held.1 ?_ node
  rw [held.2.2]
  exact sparseIndexOf_samples table.2

/-- Two neighbouring tables, the first with several blocks. -/
theorem indexed_lookup_eq_twoTables :
    ∃ tables built,
      ([(0, (List.range 600).map fun i => (i, i)), (9608, [(3, 1), (7, 2)])].mapM fun table =>
        MappedPairTable.parse
          (tableBytes 8 ((List.range 600).map fun i => (i, i)) ++ tableBytes 8 [(3, 1), (7, 2)])
          table.1 (table.1 + (tableBytes 8 table.2).length)) = .ok tables ∧
      buildIndexes
        (tableBytes 8 ((List.range 600).map fun i => (i, i)) ++ tableBytes 8 [(3, 1), (7, 2)])
        tables = .ok built ∧
      List.Forall₂ (fun table t => ∀ node,
        MappedPairTable.lookup t
          (tableBytes 8 ((List.range 600).map fun i => (i, i)) ++ tableBytes 8 [(3, 1), (7, 2)])
          node = .ok (table.2.lookup node))
        [(0, (List.range 600).map fun i => (i, i)), (9608, [(3, 1), (7, 2)])] built := by
  obtain ⟨large, listed⟩ :
    ∃ large : List (NodeId × NodeId), large = (List.range 600).map fun i => (i, i) := ⟨_, rfl⟩
  have small : ∀ pair ∈ large, pair.1 < 2 ^ 64 ∧ pair.2 < 2 ^ 64 := by
    intro pair inside
    rw [listed] at inside
    obtain ⟨i, bound, rfl⟩ := mem_map.mp inside
    have few : i < 2 ^ 64 := (mem_range.mp bound).trans (by decide)
    exact ⟨few, few⟩
  have ascending : (large.map Prod.fst).Pairwise (· < ·) := by
    rw [listed, map_map]
    exact pairwise_map.mpr pairwise_lt_range
  have size : (tableBytes 8 large).length = 9608 := by
    rw [tableBytes, length_append, length_putLe, length_entries, listed, length_map,
      length_range]
  rw [← listed]
  have first := slice_middle [] (tableBytes 8 large) (tableBytes 8 [(3, 1), (7, 2)])
  have second := slice_middle (tableBytes 8 large) (tableBytes 8 [(3, 1), (7, 2)]) []
  rw [append_nil, size] at second
  rw [nil_append] at first
  refine indexed_lookup_eq ?_ ?_ ?_ ?_
  · rw [length_append, size]
    decide
  · exact forall_mem_cons.mpr ⟨first, forall_mem_singleton.mpr second⟩
  · exact forall_mem_cons.mpr ⟨small, forall_mem_singleton.mpr (by decide)⟩
  · exact forall_mem_cons.mpr ⟨ascending, forall_mem_singleton.mpr (by decide)⟩

end Blaze
