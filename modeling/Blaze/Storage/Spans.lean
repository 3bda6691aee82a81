import Blaze.Lib.Extremes
import Blaze.Storage.Tick

/-!
# What a data file says about its rows

A data file carries the lowest and the highest offset of its rows in each partition,
and a scalar span for readers that know a single partition only.  The positions are put
together from the segments of a tick; the scalar span comes from two different
positions, the low end from the rows and the high end from everything committed so far.
-/

namespace Blaze

open List Extremes

variable {position : StreamPosition} {p q : PartitionId} {offset : Nat} {r : Nat → Nat → Prop}
  {entries : List (PartitionId × Nat)}

/-- Where a row comes from. -/
def Row.place (row : Row) : PartitionId × Nat :=
  (row.partition, row.offset)

/-- The lowest offset that the rows have in a partition. -/
def Lowest (rows : List Row) (p : PartitionId) (offset : Nat) : Prop :=
  Extreme (· ≤ ·) (rows.map Row.place) p offset

/-- The highest offset that the rows have in a partition. -/
def Highest (rows : List Row) (p : PartitionId) (offset : Nat) : Prop :=
  Extreme (· ≥ ·) (rows.map Row.place) p offset

/-! ## Positions -/

namespace StreamPosition

theorem getElem?_advance (position : StreamPosition) (q : PartitionId) (offset : Nat)
    (p : PartitionId) :
    (position.advance q offset).offsets[p]? =
      if q = p then some (max (position.get q) offset) else position.offsets[p]? := by
  unfold advance
  dsimp only
  rw [Std.TreeMap.getElem?_insert]
  simp only [Std.LawfulEqCmp.compare_eq_iff_eq]

theorem get_of_getElem? (stored : position.offsets[p]? = some offset) :
    position.get p = offset := by
  rw [get, Std.TreeMap.getD_eq_getD_getElem?, stored]
  rfl

theorem get_of_none (absent : position.offsets[p]? = none) : position.get p = 0 := by
  rw [get, Std.TreeMap.getD_eq_getD_getElem?, absent]
  rfl

/-- The position has the extremes of the entries. -/
def Marks (r : Nat → Nat → Prop) (position : StreamPosition)
    (entries : List (PartitionId × Nat)) : Prop :=
  ∀ p offset, position.offsets[p]? = some offset ↔ Extreme r entries p offset

theorem marks_new (r : Nat → Nat → Prop) : new.Marks r [] := by
  intro p offset
  constructor
  · intro stored
    simp [new] at stored
  · exact fun extreme => absurd extreme not_extreme_nil

theorem Marks.congr {others : List (PartitionId × Nat)} (marks : position.Marks r entries)
    (same : ∀ entry, entry ∈ entries ↔ entry ∈ others) : position.Marks r others :=
  fun p offset => (marks p offset).trans (extreme_congr same)

/-- A partition without an entry has none in the list. -/
theorem Marks.not_mem [Std.Total r] [IsTrans Nat r] (marks : position.Marks r entries)
    (absent : position.offsets[p]? = none) (offset : Nat) : (p, offset) ∉ entries := by
  intro member
  obtain ⟨extreme, isExtreme⟩ := exists_extreme (r := r) member
  rw [(marks p extreme).mpr isExtreme] at absent
  cases absent

/-- One more entry changes the extreme of its partition at most. -/
theorem Marks.concat [Std.Antisymm r] {position' : StreamPosition}
    (marks : position.Marks r entries) {value : Nat} (here : position'.offsets[q]? = some value)
    (elsewhere : ∀ p, p ≠ q → position'.offsets[p]? = position.offsets[p]?)
    (extreme : Extreme r (entries ++ [(q, offset)]) q value) :
    position'.Marks r (entries ++ [(q, offset)]) := by
  intro p other
  by_cases same : p = q
  · subst same
    rw [here, Option.some.injEq, extreme.iff_eq]
  · rw [elsewhere p same, marks p other, extreme_concat_of_ne same]

/-- Advancing keeps the highest offsets. -/
theorem Marks.advance (marks : position.Marks (· ≥ ·) entries) (q : PartitionId) (offset : Nat) :
    (position.advance q offset).Marks (· ≥ ·) (entries ++ [(q, offset)]) := by
  have elsewhere : ∀ p, p ≠ q →
      (position.advance q offset).offsets[p]? = position.offsets[p]? := by
    intro p other
    rw [getElem?_advance, if_neg (Ne.symm other)]
  refine marks.concat (by rw [getElem?_advance, if_pos rfl]) elsewhere ?_
  cases stored : position.offsets[q]? with
  | none =>
    rw [get_of_none stored, Nat.zero_max]
    exact extreme_concat_self le_rfl fun other member =>
      absurd member (marks.not_mem stored other)
  | some held =>
    have extreme := (marks q held).mp stored
    rw [get_of_getElem? stored]
    rcases Nat.le_total held offset with less | more
    · rw [Nat.max_eq_right less]
      exact extreme_concat_self le_rfl fun other member => (extreme.2 other member).trans less
    · rw [Nat.max_eq_left more]
      exact extreme.concat more

/-- Advancing a partition that was not there marks its lowest offset. -/
theorem Marks.advance_new (marks : position.Marks (· ≤ ·) entries)
    (absent : position.offsets[q]? = none) (offset : Nat) :
    (position.advance q offset).Marks (· ≤ ·) (entries ++ [(q, offset)]) := by
  have here : (position.advance q offset).offsets[q]? = some offset := by
    rw [getElem?_advance, if_pos rfl, get_of_none absent, Nat.zero_max]
  refine marks.concat here ?_ ?_
  · intro p other
    rw [getElem?_advance, if_neg (Ne.symm other)]
  · exact extreme_concat_self le_rfl fun other member =>
      absurd member (marks.not_mem absent other)

theorem Marks.foldl_advance (marks : position.Marks (· ≥ ·) entries)
    (more : List (PartitionId × Nat)) :
    (more.foldl (fun position entry => position.advance entry.1 entry.2) position).Marks (· ≥ ·)
      (entries ++ more) := by
  induction more generalizing position entries with
  | nil => simpa using marks
  | cons entry more ih =>
    have next := ih (marks.advance entry.1 entry.2)
    rwa [append_assoc] at next

/-- Collecting entries keeps the highest offset of each partition. -/
theorem marks_fromList (entries : List (PartitionId × Nat)) :
    (fromList entries).Marks (· ≥ ·) entries := by
  have marks := (marks_new (· ≥ ·)).foldl_advance entries
  rwa [nil_append] at marks

/-- Apart from partition zero, a partition is only there once something of it was
applied. -/
def Proper (position : StreamPosition) : Prop :=
  ∀ p, p ≠ 0 → p ∈ position.offsets → position.get p ≠ 0

theorem proper_new : new.Proper := by
  intro p _ member
  simp [new] at member

theorem mem_advance : p ∈ (position.advance q offset).offsets ↔ p = q ∨ p ∈ position.offsets := by
  unfold advance
  rw [Std.TreeMap.mem_insert, Std.LawfulEqCmp.compare_eq_iff_eq, eq_comm]

theorem Proper.advance (proper : position.Proper) (applied : q ≠ 0 → offset ≠ 0) :
    (position.advance q offset).Proper := by
  intro p other member
  rw [get_advance]
  split
  · next here =>
      have positive := applied (here ▸ other)
      omega
  · next elsewhere => exact proper p other ((mem_advance.mp member).resolve_left elsewhere)

theorem Proper.foldl_advance (proper : position.Proper)
    (applied : ∀ entry ∈ entries, entry.1 ≠ 0 → entry.2 ≠ 0) :
    (entries.foldl (fun position entry => position.advance entry.1 entry.2) position).Proper := by
  induction entries generalizing position with
  | nil => exact proper
  | cons entry entries ih =>
    obtain ⟨here, rest⟩ := forall_mem_cons.mp applied
    exact ih (proper.advance here) rest

theorem Proper.merge {other : StreamPosition} (proper : position.Proper)
    (otherProper : other.Proper) : (position.merge other).Proper := by
  apply proper.foldl_advance
  rintro ⟨p, offset⟩ member apart
  have stored := (mem_toList_iff other p offset).mp member
  rw [← get_of_getElem? stored]
  apply otherProper p apart
  rw [Std.TreeMap.mem_iff_isSome_getElem?, stored]
  rfl

theorem Marks.proper (marks : position.Marks r entries) (applied : ∀ entry ∈ entries, entry.2 ≠ 0) :
    position.Proper := by
  intro p _ member
  obtain ⟨offset, stored⟩ :=
    Option.isSome_iff_exists.mp (Std.TreeMap.mem_iff_isSome_getElem?.mp member)
  rw [get_of_getElem? stored]
  exact applied (p, offset) ((marks p offset).mp stored).1

/-- The scalar of a position is the offset of partition zero, unless another partition
is covered. -/
theorem asScalar_getD (proper : position.Proper) :
    (∀ p, p ≠ 0 → position.get p = 0) ∧ position.asScalar.getD 0 = position.get 0 ∨
      (∃ p, p ≠ 0 ∧ position.get p ≠ 0) ∧ position.asScalar.getD 0 = 0 := by
  have size : position.len = position.offsets.keys.length := Std.TreeMap.length_keys.symm
  have distinct := Std.TreeMap.distinct_keys (t := position.offsets)
  have member : ∀ p, p ∈ position.offsets ↔ p ∈ position.offsets.keys := fun p =>
    Std.TreeMap.mem_keys.symm
  have absent : ∀ p, p ∉ position.offsets.keys → position.get p = 0 := by
    intro p missing
    exact get_of_none (Std.TreeMap.getElem?_eq_none (mt (member p).mp missing))
  unfold asScalar
  rw [size]
  match listed : position.offsets.keys with
  | [] =>
    rw [listed] at absent
    exact Or.inl ⟨fun p _ => absent p (by simp), (absent 0 (by simp)).symm⟩
  | [k] =>
    rw [listed] at absent member
    by_cases zero : k = 0
    · subst zero
      refine Or.inl ⟨fun p other => absent p (by simpa using other), ?_⟩
      change (position.offsets[0]?).getD 0 = _
      rw [StreamPosition.get, Std.TreeMap.getD_eq_getD_getElem?]
    · refine Or.inr ⟨⟨k, zero, proper k zero ((member k).mpr (by simp))⟩, ?_⟩
      have none : position.offsets[0]? = none :=
        Std.TreeMap.getElem?_eq_none (mt (member 0).mp (by simpa using Ne.symm zero))
      change (position.offsets[0]?).getD 0 = _
      rw [none]
      rfl
  | k :: l :: rest =>
    rw [listed] at member distinct
    refine Or.inr ⟨?_, rfl⟩
    by_cases zero : k = 0
    · have other : l ≠ 0 := by
        rintro rfl
        have apart := (pairwise_cons.mp distinct).1 0 mem_cons_self
        simp [zero] at apart
      exact ⟨l, other, proper l other ((member l).mpr (by simp))⟩
    · exact ⟨k, zero, proper k zero ((member k).mpr (by simp))⟩

end StreamPosition

/-! ## Segments -/

/-- The positions of a segment are the extents of its rows, and offsets count from
one. -/
structure Segment.Extents (segment : Segment) : Prop where
  positive : ∀ row ∈ segment.rows, row.offset ≠ 0
  first : segment.first.Marks (· ≤ ·) (segment.rows.map Row.place)
  last : segment.last.Marks (· ≥ ·) (segment.rows.map Row.place)

namespace Segment

theorem extents_empty : empty.Extents where
  positive := by simp [empty]
  first := StreamPosition.marks_new _
  last := StreamPosition.marks_new _

/-- The rows of a record all come from one place. -/
theorem mem_places_append (chunk : Segment) (record : Record) (entry : PartitionId × Nat) :
    entry ∈ chunk.rows.map Row.place ++ [(record.partition, record.offset)] ↔
      entry ∈ (chunk.append record).rows.map Row.place := by
  change _ ↔ entry ∈ (chunk.rows ++ record.rows).map Row.place
  rw [map_append, mem_append, mem_append, mem_singleton]
  apply or_congr_right
  constructor
  · rintro rfl
    obtain ⟨row, member⟩ := exists_mem_of_ne_nil _ record.rows_ne_nil
    obtain ⟨partition, offset⟩ := Record.of_mem_rows member
    exact mem_map.mpr ⟨row, member, Prod.ext partition offset⟩
  · intro member
    obtain ⟨row, inRows, rfl⟩ := mem_map.mp member
    obtain ⟨partition, offset⟩ := Record.of_mem_rows inRows
    exact Prod.ext partition offset

/-- Appending a record above all rows of its partition. -/
theorem Extents.append {chunk : Segment} (extents : chunk.Extents) {record : Record}
    (positive : record.offset ≠ 0)
    (above : ∀ row ∈ chunk.rows, row.partition = record.partition → row.offset < record.offset) :
    (chunk.append record).Extents where
  positive row member := by
    rcases mem_append.mp member with old | new
    · exact extents.positive row old
    · rw [(Record.of_mem_rows new).2]
      exact positive
  first := by
    refine StreamPosition.Marks.congr ?_ (chunk.mem_places_append record)
    change (if chunk.first.get record.partition = 0 then
      chunk.first.advance record.partition record.offset else chunk.first).Marks _ _
    cases stored : chunk.first.offsets[record.partition]? with
    | none =>
      rw [if_pos (StreamPosition.get_of_none stored)]
      exact extents.first.advance_new stored record.offset
    | some held =>
      -- the partition is there already, below the record
      have lowest := (extents.first _ held).mp stored
      obtain ⟨row, member, place⟩ := mem_map.mp lowest.1
      obtain ⟨partition, offset⟩ := Prod.mk.inj place
      rw [StreamPosition.get_of_getElem? stored, if_neg (offset ▸ extents.positive row member)]
      refine extents.first.concat stored (fun _ _ => rfl) (lowest.concat ?_)
      rw [← offset]
      exact (above row member partition).le
  last := by
    refine StreamPosition.Marks.congr ?_ (chunk.mem_places_append record)
    exact extents.last.advance record.partition record.offset

/-- The order of the rows does not matter. -/
theorem Extents.of_perm {segment : Segment} (extents : segment.Extents) {rows : List Row}
    (perm : rows.Perm segment.rows) : ({ segment with rows } : Segment).Extents where
  positive row member := extents.positive row (perm.mem_iff.mp member)
  first := extents.first.congr fun _ => (perm.map Row.place).mem_iff.symm
  last := extents.last.congr fun _ => (perm.map Row.place).mem_iff.symm

end Segment

/-! ## Batches -/

namespace Batch

variable {segments : List Segment}

/-- Putting positions of segments together. -/
theorem marks_flatMap [Std.Total r] [IsTrans Nat r] {part : Segment → StreamPosition}
    (marks : position.Marks r (segments.flatMap fun segment => (part segment).offsets.toList))
    (parts : ∀ segment ∈ segments, (part segment).Marks r (segment.rows.map Row.place)) :
    position.Marks r ((segments.flatMap Segment.rows).map Row.place) := by
  intro p offset
  rw [marks p offset, map_flatMap]
  apply extreme_flatMap_iff
  intro segment member p offset
  rw [StreamPosition.mem_toList_iff]
  exact parts segment member p offset

/-- The high ends of the segments give the highest offsets of all rows. -/
theorem marks_fileLast (extents : ∀ segment ∈ segments, segment.Extents) :
    (fileLast segments).Marks (· ≥ ·) ((segments.flatMap Segment.rows).map Row.place) := by
  have collected : fileLast segments =
      StreamPosition.fromList (segments.flatMap fun segment => segment.last.offsets.toList) := by
    unfold StreamPosition.fromList
    rw [foldl_flatMap]
    rfl
  rw [collected]
  exact marks_flatMap (StreamPosition.marks_fromList _)
    fun segment member => (extents segment member).last

/-- Keeping the lower of two offsets keeps the lowest offsets. -/
theorem marks_lower {low : Std.TreeMap PartitionId Nat}
    (marks : (⟨low⟩ : StreamPosition).Marks (· ≤ ·) entries) (entry : PartitionId × Nat) :
    (⟨lower low entry⟩ : StreamPosition).Marks (· ≤ ·) (entries ++ [entry]) := by
  have elsewhere : ∀ p, p ≠ entry.1 → (lower low entry)[p]? = low[p]? := by
    intro p other
    unfold lower
    rw [Std.TreeMap.getElem?_insert, if_neg]
    rw [Std.LawfulEqCmp.compare_eq_iff_eq]
    exact Ne.symm other
  cases stored : low[entry.1]? with
  | none =>
    have here : (lower low entry)[entry.1]? = some entry.2 := by
      unfold lower
      rw [Std.TreeMap.getElem?_insert_self, stored]
    exact marks.concat here elsewhere (extreme_concat_self le_rfl fun other member =>
      absurd member (marks.not_mem stored other))
  | some held =>
    have here : (lower low entry)[entry.1]? = some (min held entry.2) := by
      unfold lower
      rw [Std.TreeMap.getElem?_insert_self, stored]
    have extreme := (marks entry.1 held).mp stored
    refine marks.concat here elsewhere ?_
    rcases Nat.le_total held entry.2 with less | more
    · rw [Nat.min_eq_left less]
      exact extreme.concat less
    · rw [Nat.min_eq_right more]
      exact extreme_concat_self le_rfl fun other member => more.trans (extreme.2 other member)

theorem marks_foldl_lower {low : Std.TreeMap PartitionId Nat}
    (marks : (⟨low⟩ : StreamPosition).Marks (· ≤ ·) entries) (more : List (PartitionId × Nat)) :
    (⟨more.foldl lower low⟩ : StreamPosition).Marks (· ≤ ·) (entries ++ more) := by
  induction more generalizing low entries with
  | nil => simpa using marks
  | cons entry more ih =>
    have next := ih (marks_lower marks entry)
    rwa [append_assoc] at next

/-- Collecting the entries of a map gives the map again. -/
theorem getElem?_fromList_toList (low : Std.TreeMap PartitionId Nat) (p : PartitionId)
    (offset : Nat) :
    (StreamPosition.fromList low.toList).offsets[p]? = some offset ↔ low[p]? = some offset := by
  have entry : ∀ value, (p, value) ∈ low.toList ↔ low[p]? = some value :=
    fun value => StreamPosition.mem_toList_iff ⟨low⟩ p value
  rw [StreamPosition.marks_fromList low.toList p offset, Extreme, entry]
  constructor
  · exact And.left
  · intro stored
    refine ⟨stored, fun other member => ?_⟩
    rw [entry, stored] at member
    exact (Option.some.inj member).ge

/-- The low ends of the segments give the lowest offsets of all rows. -/
theorem marks_fileFirst (extents : ∀ segment ∈ segments, segment.Extents) :
    (fileFirst segments).Marks (· ≤ ·) ((segments.flatMap Segment.rows).map Row.place) := by
  have lowest := marks_foldl_lower (StreamPosition.marks_new (· ≤ ·))
    (segments.flatMap fun segment => segment.first.offsets.toList)
  rw [nil_append, foldl_flatMap] at lowest
  have marks : (fileFirst segments).Marks (· ≤ ·)
      (segments.flatMap fun segment => segment.first.offsets.toList) := by
    intro p offset
    unfold fileFirst
    dsimp only
    rw [getElem?_fromList_toList]
    exact lowest p offset
  exact marks_flatMap marks fun segment member => (extents segment member).first

end Batch

/-! ## Data files -/

/-- The rows all belong to partition zero. -/
def OnlyZero (rows : List Row) : Prop :=
  ∀ row ∈ rows, row.partition = 0

/-- The positions of a data file are the extents of its rows. -/
structure DataFileMeta.Spans (file : DataFileMeta) (rows : List Row) : Prop where
  first : ∀ p offset, file.firstPosition.offsets[p]? = some offset ↔ Lowest rows p offset
  last : ∀ p offset, file.lastPosition.offsets[p]? = some offset ↔ Highest rows p offset

/-- The scalar span of a data file is the extent of its rows in partition zero, when
they have no other, or it is not given. -/
def DataFileMeta.ScalarOk (file : DataFileMeta) (rows : List Row) : Prop :=
  (OnlyZero rows ∧ Lowest rows 0 file.minOffset ∧ Highest rows 0 file.maxOffset) ∨
    (file.minOffset = 0 ∧ file.maxOffset = 0)

/-- The batch was put together from segments that are not covered by the position it
starts from. -/
def Batch.Filled (seen : Observed) (batch : Batch) : Prop :=
  seen.prevPosition.Proper ∧ ∃ segments, segments ≠ [] ∧ batch = Batch.new seen segments ∧
    ∀ segment ∈ segments, segment.Extents ∧
      ∃ p, seen.prevPosition.get p < segment.last.get p

section Marked

variable {r : Nat → Nat → Prop} {position : StreamPosition} {rows : List Row}

theorem exists_row_of_extreme (extreme : Extreme r (rows.map Row.place) p offset) :
    ∃ row ∈ rows, row.partition = p ∧ row.offset = offset := by
  obtain ⟨row, member, place⟩ := mem_map.mp extreme.1
  exact ⟨row, member, Prod.mk.inj place⟩

/-- A partition with a row is marked with the offset that `get` reads. -/
theorem StreamPosition.Marks.extreme [Std.Total r] [IsTrans Nat r]
    (marks : position.Marks r (rows.map Row.place)) {row : Row} (member : row ∈ rows) :
    Extreme r (rows.map Row.place) row.partition (position.get row.partition) := by
  obtain ⟨offset, isExtreme⟩ := exists_extreme (r := r)
    (mem_map.mpr ⟨row, member, rfl⟩ : (row.partition, row.offset) ∈ rows.map Row.place)
  have stored := (marks _ _).mpr isExtreme
  rw [StreamPosition.get_of_getElem? stored]
  exact isExtreme

/-- A partition that `get` reads an offset for has a row. -/
theorem StreamPosition.Marks.exists_row (marks : position.Marks r (rows.map Row.place))
    (applied : position.get p ≠ 0) : ∃ row ∈ rows, row.partition = p := by
  have stored := (position.mem_toList_iff p _).mp (StreamPosition.mem_toList_of_get_ne applied)
  obtain ⟨row, member, partition, -⟩ := exists_row_of_extreme ((marks _ _).mp stored)
  exact ⟨row, member, partition⟩

/-- Only partition zero is marked exactly when only it has rows. -/
theorem StreamPosition.Marks.onlyZero_iff [Std.Total r] [IsTrans Nat r]
    (marks : position.Marks r (rows.map Row.place)) (positive : ∀ row ∈ rows, row.offset ≠ 0) :
    (∀ p, p ≠ 0 → position.get p = 0) ↔ OnlyZero rows := by
  constructor
  · intro zero row member
    by_contra other
    obtain ⟨held, inRows, -, offset⟩ := exists_row_of_extreme (marks.extreme member)
    exact positive held inRows (offset.trans (zero _ other))
  · intro only p other
    by_contra applied
    obtain ⟨row, member, partition⟩ := marks.exists_row applied
    exact other (partition.symm.trans (only row member))

end Marked

namespace Batch

variable {seen : Observed} {batch : Batch}

section Filled

variable (filled : batch.Filled seen)

include filled

theorem Filled.positive : ∀ row ∈ batch.rows, row.offset ≠ 0 := by
  obtain ⟨-, segments, -, rfl, each⟩ := filled
  intro row member
  obtain ⟨segment, inSegments, inRows⟩ := mem_flatMap.mp member
  exact (each segment inSegments).1.positive row inRows

theorem Filled.first : batch.first.Marks (· ≤ ·) (batch.rows.map Row.place) := by
  obtain ⟨-, segments, -, rfl, each⟩ := filled
  exact marks_fileFirst fun segment member => (each segment member).1

theorem Filled.last : batch.last.Marks (· ≥ ·) (batch.rows.map Row.place) := by
  obtain ⟨-, segments, -, rfl, each⟩ := filled
  exact marks_fileLast fun segment member => (each segment member).1

theorem Filled.get_position (p : PartitionId) :
    batch.position.get p = max (seen.prevPosition.get p) (batch.last.get p) := by
  obtain ⟨-, segments, -, rfl, -⟩ := filled
  exact StreamPosition.get_merge _ _ p

theorem Filled.proper : batch.position.Proper := by
  have last := filled.last.proper (by
    intro entry member
    obtain ⟨row, inRows, rfl⟩ := mem_map.mp member
    exact filled.positive row inRows)
  obtain ⟨proper, segments, -, rfl, -⟩ := filled
  exact proper.merge last

/-- Rows of partition zero alone reach beyond the position the batch starts from. -/
theorem Filled.advances (only : OnlyZero batch.rows) :
    (∃ row ∈ batch.rows, row.partition = 0) ∧ seen.prevPosition.get 0 < batch.last.get 0 := by
  have highest := filled.last
  obtain ⟨-, segments, nonempty, rfl, each⟩ := filled
  obtain ⟨segment, member⟩ := exists_mem_of_ne_nil segments nonempty
  obtain ⟨extents, p, beyond⟩ := each segment member
  have stored := (segment.last.mem_toList_iff p _).mp
    (StreamPosition.mem_toList_of_get_ne (Nat.ne_zero_of_lt beyond))
  obtain ⟨row, inSegment, partition, offset⟩ :=
    exists_row_of_extreme ((extents.last _ _).mp stored)
  have inRows : row ∈ (Batch.new seen segments).rows :=
    mem_flatMap.mpr ⟨segment, member, inSegment⟩
  have zero := only row inRows
  refine ⟨⟨row, inRows, zero⟩, ?_⟩
  have most := (highest.extreme inRows).2 row.offset (mem_map.mpr ⟨row, inRows, rfl⟩)
  rw [← partition, zero] at beyond offset
  rw [zero] at most
  exact beyond.trans_le (offset ▸ most)

/-- The data file of a batch has the positions of its rows. -/
theorem Filled.spans (path : ObjectPath) : (batch.dataFile path).Spans batch.rows :=
  ⟨filled.first, filled.last⟩

/-- Its scalar span is right unless its rows are of partition zero alone while the
position it starts from covers another partition. -/
theorem Filled.scalarOk_iff (path : ObjectPath) :
    (batch.dataFile path).ScalarOk batch.rows ↔
      (OnlyZero batch.rows → ∀ p, p ≠ 0 → seen.prevPosition.get p = 0) := by
  have places : ∀ entry ∈ batch.rows.map Row.place, entry.2 ≠ 0 := by
    intro entry member
    obtain ⟨row, inRows, rfl⟩ := mem_map.mp member
    exact filled.positive row inRows
  have firstOnly := filled.first.onlyZero_iff filled.positive
  have lastOnly := filled.last.onlyZero_iff filled.positive
  have lowScalar := StreamPosition.asScalar_getD (filled.first.proper places)
  have highScalar := StreamPosition.asScalar_getD filled.proper
  have position := filled.get_position
  change (OnlyZero batch.rows ∧ Lowest batch.rows 0 (batch.first.asScalar.getD 0) ∧
    Highest batch.rows 0 (batch.position.asScalar.getD 0)) ∨
      (batch.first.asScalar.getD 0 = 0 ∧ batch.position.asScalar.getD 0 = 0) ↔ _
  by_cases only : OnlyZero batch.rows
  · obtain ⟨⟨row, inRows, zero⟩, beyond⟩ := filled.advances only
    have lowest := filled.first.extreme inRows
    have highest := filled.last.extreme inRows
    rw [zero] at lowest highest
    have low : batch.first.asScalar.getD 0 = batch.first.get 0 := by
      rcases lowScalar with ⟨-, low⟩ | ⟨⟨p, other, applied⟩, -⟩
      · exact low
      · exact absurd (firstOnly.mpr only p other) applied
    have lowNonzero : batch.first.get 0 ≠ 0 := places _ lowest.1
    constructor
    · rintro (⟨-, -, high⟩ | ⟨none, -⟩) - p other
      · rcases highScalar with ⟨alone, -⟩ | ⟨-, none⟩
        · have covered := alone p other
          rw [position] at covered
          omega
        · rw [none] at high
          exact absurd rfl (places _ high.1)
      · rw [low] at none
        exact absurd none lowNonzero
    · intro alone
      left
      rcases highScalar with ⟨-, high⟩ | ⟨⟨p, other, applied⟩, -⟩
      · rw [low, high, position, Nat.max_eq_right beyond.le]
        exact ⟨only, lowest, highest⟩
      · rw [position, alone only p other, lastOnly.mpr only p other] at applied
        exact absurd rfl applied
  · refine iff_of_true (Or.inr ⟨?_, ?_⟩) fun impossible => absurd impossible only
    · rcases lowScalar with ⟨alone, -⟩ | ⟨-, none⟩
      · exact absurd (firstOnly.mp alone) only
      · exact none
    · rcases highScalar with ⟨alone, -⟩ | ⟨-, none⟩
      · refine absurd (lastOnly.mp fun p other => ?_) only
        have covered := alone p other
        rw [position] at covered
        omega
      · exact none

end Filled

end Batch

end Blaze
