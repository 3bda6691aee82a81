import Blaze.Core.Stream
import Blaze.Core.Types
import Mathlib.Data.List.Flatten

/-!
# Edge buffering

Log records are exploded into one row per visible scope and collected in an
active chunk.  Every flush tick seals the active chunk into a segment, and a
segment is dropped once a committed position covers all of it.
-/

namespace Blaze

open List

variable {record : Record} {records recent : List Record} {chunk : Segment} {buffer : EdgeBuffer}
  {chunks : List (List Record)}

/-- A log record: an event under the offset its partition gave it. -/
structure Record where
  partition : PartitionId
  offset : Nat
  event : EdgeEvent
  deriving DecidableEq, Repr

/-- One row of the edge table. -/
structure Row where
  partition : PartitionId
  offset : Nat
  src : NodeId
  dst : NodeId
  scopeId : ScopeId
  eventTime : Int
  props : Option String
  deriving DecidableEq, Repr

namespace Row

/-- What identifies a row. -/
def key (row : Row) : PartitionId × Nat × ScopeId :=
  (row.partition, row.offset, row.scopeId)

/-- The order rows are sealed in. -/
def Precedes (a b : Row) : Prop :=
  a.scopeId < b.scopeId ∨ a.scopeId = b.scopeId ∧ a.src ≤ b.src

instance : DecidableRel Precedes := fun a b =>
  inferInstanceAs (Decidable (a.scopeId < b.scopeId ∨ a.scopeId = b.scopeId ∧ a.src ≤ b.src))

end Row

/-- The scopes an event has a row for: the global scope for a global edge. -/
def EdgeEvent.rowScopes (event : EdgeEvent) : List ScopeId :=
  match event.visibility.normalize with
  | .global => [globalScope]
  | .scopedTo scopes => scopes

/-- The rows of one record. -/
def Record.rows (record : Record) : List Row :=
  record.event.rowScopes.map fun scope =>
    { partition := record.partition
      offset := record.offset
      src := record.event.src
      dst := record.event.dst
      scopeId := scope
      eventTime := record.event.eventTimeMs
      props := record.event.props }

/-- Buffered rows, with the lowest and highest offset seen per partition. -/
structure Segment where
  rows : List Row
  first : StreamPosition
  last : StreamPosition

namespace Segment

def empty : Segment :=
  ⟨[], StreamPosition.new, StreamPosition.new⟩

/-- Add the rows of one record. -/
def append (chunk : Segment) (record : Record) : Segment where
  rows := chunk.rows ++ record.rows
  first :=
    if chunk.first.get record.partition = 0 then
      chunk.first.advance record.partition record.offset
    else
      chunk.first
  last := chunk.last.advance record.partition record.offset

end Segment

structure EdgeBuffer where
  active : Segment
  sealed : List Segment

namespace EdgeBuffer

def new : EdgeBuffer :=
  ⟨Segment.empty, []⟩

/-- Append one event at its position in the stream. -/
def append (buffer : EdgeBuffer) (record : Record) : EdgeBuffer :=
  { buffer with active := buffer.active.append record }

/-- Rotate the active chunk into a sealed segment, its rows sorted by scope and
source; an empty chunk stays. -/
def sealActive (buffer : EdgeBuffer) : EdgeBuffer :=
  if buffer.active.rows.isEmpty then
    buffer
  else
    { active := Segment.empty
      sealed := buffer.sealed ++
        [{ buffer.active with rows := buffer.active.rows.insertionSort Row.Precedes }] }

/-- Drop sealed segments the committed position fully covers. -/
def dropCommitted (buffer : EdgeBuffer) (committed : StreamPosition) : EdgeBuffer :=
  { buffer with sealed := buffer.sealed.filter fun segment => !committed.dominates segment.last }

end EdgeBuffer

/-! ## The rows of a record -/

theorem EdgeEvent.rowScopes_ascending (event : EdgeEvent) : event.rowScopes.Pairwise (· < ·) := by
  unfold rowScopes
  split
  · exact pairwise_singleton _ _
  · next listed => exact (Visibility.normalize_scoped listed).1

theorem EdgeEvent.rowScopes_ne_nil (event : EdgeEvent) : event.rowScopes ≠ [] := by
  unfold rowScopes
  cases visible : event.visibility with
  | global => simp [Visibility.normalize]
  | scopedTo scopes =>
    simp only [Visibility.normalize]
    by_cases isGlobal : scopes.isEmpty || scopes.contains globalScope
    · rw [if_pos isGlobal]
      simp
    · rw [if_neg isGlobal]
      cases scopes with
      | nil => exact absurd rfl isGlobal
      | cons scope scopes =>
        have listed : scope ∈ SortDedup.sortDedup (scope :: scopes) :=
          (SortDedup.mem_sortDedup _ _).mpr mem_cons_self
        exact ne_nil_of_mem listed

theorem Record.rows_ne_nil (record : Record) : record.rows ≠ [] := by
  unfold rows
  simpa using record.event.rowScopes_ne_nil

theorem Record.of_mem_rows {row : Row} (member : row ∈ record.rows) :
    row.partition = record.partition ∧ row.offset = record.offset := by
  unfold rows at member
  rcases mem_map.mp member with ⟨scope, -, rfl⟩
  exact ⟨rfl, rfl⟩

theorem Record.key_rows_nodup (record : Record) : (record.rows.map Row.key).Nodup := by
  unfold rows
  rw [map_map]
  apply List.Nodup.map
  · intro s t same
    exact congrArg (fun key => key.2.2) same
  · exact record.event.rowScopes_ascending.imp fun order => order.ne

/-- In each partition the records stand in the order of their offsets. -/
def Ordered (records : List Record) : Prop :=
  records.Pairwise fun a b => a.partition = b.partition → a.offset < b.offset

/-- Ordered records contribute no row twice. -/
theorem Ordered.key_rows_nodup (ordered : Ordered records) :
    ((records.flatMap Record.rows).map Row.key).Nodup := by
  rw [map_flatMap, nodup_flatMap]
  refine ⟨fun record _ => record.key_rows_nodup, ordered.imp fun {a b} order => ?_⟩
  change List.Disjoint (a.rows.map Row.key) (b.rows.map Row.key)
  intro key inA inB
  rcases mem_map.mp inA with ⟨rowA, memberA, rfl⟩
  rcases mem_map.mp inB with ⟨rowB, memberB, same⟩
  have atA := Record.of_mem_rows memberA
  have atB := Record.of_mem_rows memberB
  simp only [Row.key, Prod.mk.injEq] at same
  have before := order (by rw [← atA.1, ← atB.1, same.1])
  rw [← atA.2, ← atB.2, same.2.1] at before
  exact lt_irrefl _ before

/-! ## What a chunk holds -/

/-- The lowest offset the records have in partition `p`; zero if they have
none. -/
def IsFirst (records : List Record) (p : PartitionId) (offset : Nat) : Prop :=
  (offset = 0 ∧ ∀ record ∈ records, record.partition ≠ p) ∨
    ∃ record ∈ records, record.partition = p ∧ record.offset = offset ∧
      ∀ other ∈ records, other.partition = p → offset ≤ other.offset

/-- The chunk's rows are those of the records, and its positions are their
extent. -/
structure Segment.Holds (chunk : Segment) (records : List Record) : Prop where
  rows : chunk.rows.Perm (records.flatMap Record.rows)
  positive : ∀ record ∈ records, record.offset ≠ 0
  first : ∀ p, IsFirst records p (chunk.first.get p)
  last : ∀ p bound, chunk.last.get p ≤ bound ↔
    ∀ record ∈ records, record.partition = p → record.offset ≤ bound

namespace Segment

theorem holds_empty : empty.Holds [] where
  rows := by simp [empty]
  positive := by simp
  first p := Or.inl ⟨by simp [empty], by simp⟩
  last := by simp [empty]

theorem Holds.le_last (holds : chunk.Holds records) (member : record ∈ records) :
    record.offset ≤ chunk.last.get record.partition :=
  (holds.last _ _).mp le_rfl record member rfl

/-- A partition the chunk has an offset for has a record there with that
offset. -/
theorem Holds.exists_last (holds : chunk.Holds records) {p : PartitionId}
    (present : chunk.last.get p ≠ 0) :
    ∃ record ∈ records, record.partition = p ∧ record.offset = chunk.last.get p := by
  by_contra missing
  have smaller : chunk.last.get p ≤ chunk.last.get p - 1 := by
    rw [holds.last]
    intro record member here
    have bound := holds.le_last member
    rw [here] at bound
    have different : record.offset ≠ chunk.last.get p := fun same =>
      missing ⟨record, member, here, same⟩
    omega
  omega

/-- Appending a record above everything the chunk has of its partition. -/
theorem Holds.append (holds : chunk.Holds records) (positive : record.offset ≠ 0)
    (above : ∀ other ∈ records, other.partition = record.partition →
      other.offset < record.offset) :
    (chunk.append record).Holds (records ++ [record]) where
  rows := by
    rw [flatMap_append, flatMap_singleton]
    exact holds.rows.append_right _
  positive other member := by
    rcases mem_append.mp member with old | new
    · exact holds.positive other old
    · rw [mem_singleton.mp new]
      exact positive
  first p := by
    change IsFirst _ p (StreamPosition.get (if chunk.first.get record.partition = 0 then
      chunk.first.advance record.partition record.offset else chunk.first) p)
    rcases holds.first p with ⟨unset, absent⟩ | ⟨lowest, inChunk, here, lowestOffset, least⟩
    · by_cases mine : record.partition = p
      · -- the record is the first of its partition
        rw [mine, if_pos unset, StreamPosition.get_advance_self, unset, Nat.zero_max]
        refine Or.inr ⟨record, by simp, mine, rfl, fun other member samePartition => ?_⟩
        rcases mem_append.mp member with old | new
        · exact absurd samePartition (absent other old)
        · rw [mem_singleton.mp new]
      · left
        constructor
        · split
          · rw [StreamPosition.get_advance_of_ne _ _ (Ne.symm mine), unset]
          · exact unset
        · intro other member
          rcases mem_append.mp member with old | new
          · exact absent other old
          · rw [mem_singleton.mp new]
            exact mine
    · right
      have kept : StreamPosition.get (if chunk.first.get record.partition = 0 then
          chunk.first.advance record.partition record.offset else chunk.first) p =
            chunk.first.get p := by
        split
        · next unset =>
            apply StreamPosition.get_advance_of_ne
            intro mine
            rw [← mine, ← lowestOffset] at unset
            exact holds.positive lowest inChunk unset
        · rfl
      rw [kept]
      refine ⟨lowest, mem_append_left _ inChunk, here, lowestOffset,
        fun other member samePartition => ?_⟩
      rcases mem_append.mp member with old | new
      · exact least other old samePartition
      · rw [mem_singleton.mp new] at samePartition ⊢
        rw [← lowestOffset]
        exact (above lowest inChunk (here.trans samePartition.symm)).le
  last p bound := by
    change (chunk.last.advance record.partition record.offset).get p ≤ bound ↔ _
    rw [forall_mem_append, forall_mem_singleton, ← holds.last, StreamPosition.get_advance]
    by_cases here : p = record.partition
    · rw [if_pos here, max_le_iff]
      simp [here]
    · rw [if_neg here]
      simp [Ne.symm here]

/-- The order of the rows does not matter. -/
theorem Holds.of_perm (holds : chunk.Holds records) {rows : List Row}
    (perm : rows.Perm chunk.rows) :
    ({ chunk with rows } : Segment).Holds records where
  rows := perm.trans holds.rows
  positive := holds.positive
  first := holds.first
  last := holds.last

/-- Only a chunk without records is without rows. -/
theorem Holds.records_eq_nil (holds : chunk.Holds records) (empty : chunk.rows = []) :
    records = [] := by
  have none := holds.rows
  rw [empty] at none
  have rowless : records.flatMap Record.rows = [] := none.nil_eq.symm
  rw [flatMap_eq_nil_iff] at rowless
  rw [eq_nil_iff_forall_not_mem]
  exact fun record member => record.rows_ne_nil (rowless record member)

end Segment

/-- The buffer holds the given records: one list for each sealed segment, and
one for the active chunk. -/
structure EdgeBuffer.Holds (buffer : EdgeBuffer) (chunks : List (List Record))
    (recent : List Record) : Prop where
  sealed : List.Forall₂ Segment.Holds buffer.sealed chunks
  active : buffer.active.Holds recent
  ordered : Ordered (chunks.flatten ++ recent)

namespace EdgeBuffer

theorem holds_new : new.Holds [] [] where
  sealed := List.Forall₂.nil
  active := Segment.holds_empty
  ordered := List.Pairwise.nil

theorem Holds.append (holds : buffer.Holds chunks recent) (positive : record.offset ≠ 0)
    (above : ∀ other ∈ chunks.flatten ++ recent, other.partition = record.partition →
      other.offset < record.offset) :
    (buffer.append record).Holds chunks (recent ++ [record]) where
  sealed := holds.sealed
  active := holds.active.append positive fun other member =>
    above other (mem_append_right _ member)
  ordered := by
    rw [← append_assoc]
    unfold Ordered
    rw [pairwise_append]
    refine ⟨holds.ordered, pairwise_singleton _ _, fun other member last final => ?_⟩
    rw [mem_singleton.mp final]
    exact above other member

/-- Sealing moves the active records behind the sealed ones. -/
theorem Holds.sealActive (holds : buffer.Holds chunks recent) :
    ∃ chunks' : List (List Record), chunks'.flatten = chunks.flatten ++ recent ∧
      buffer.sealActive.Holds chunks' [] := by
  unfold EdgeBuffer.sealActive
  split
  · next empty =>
      have noRecords := holds.active.records_eq_nil (List.isEmpty_iff.mp empty)
      subst noRecords
      exact ⟨chunks, by simp, holds⟩
  · refine ⟨chunks ++ [recent], by simp, ?_, Segment.holds_empty, ?_⟩
    · apply rel_append holds.sealed
      exact List.Forall₂.cons (holds.active.of_perm (perm_insertionSort _ _)) List.Forall₂.nil
    · simpa using holds.ordered

/-- Dropping committed segments forgets only records the position covers. -/
theorem Holds.dropCommitted (holds : buffer.Holds chunks recent) (committed : StreamPosition) :
    ∃ kept : List (List Record), (buffer.dropCommitted committed).Holds kept recent ∧
      kept.flatten.Sublist chunks.flatten ∧
      ∀ record ∈ chunks.flatten, record ∈ kept.flatten ∨
        record.offset ≤ committed.get record.partition := by
  rcases holds with ⟨sealedHold, activeHolds, ordered⟩
  suffices filtered : ∀ segments : List Segment,
      List.Forall₂ Segment.Holds segments chunks → ∃ kept : List (List Record),
        List.Forall₂ Segment.Holds
          (segments.filter fun segment => !committed.dominates segment.last) kept ∧
        kept.flatten.Sublist chunks.flatten ∧
        ∀ record ∈ chunks.flatten, record ∈ kept.flatten ∨
          record.offset ≤ committed.get record.partition by
    rcases filtered buffer.sealed sealedHold with ⟨kept, keptHold, sublist, covered⟩
    exact ⟨kept, ⟨keptHold, activeHolds, ordered.sublist (sublist.append_right recent)⟩,
      sublist, covered⟩
  intro segments sealedHold'
  clear sealedHold activeHolds ordered
  induction sealedHold' with
  | nil => exact ⟨[], List.Forall₂.nil, by simp, by simp⟩
  | @cons segment records segments chunks segmentHolds rest ih =>
    rcases ih with ⟨kept, keptHold, sublist, covered⟩
    by_cases durable : committed.dominates segment.last = true
    · refine ⟨kept, ?_, ?_, fun record member => ?_⟩
      · rw [filter_cons_of_neg (by simp [durable])]
        exact keptHold
      · rw [flatten_cons]
        exact sublist.trans (sublist_append_right _ _)
      · rcases mem_append.mp (flatten_cons ▸ member) with here | later
        · right
          exact (segmentHolds.le_last here).trans ((StreamPosition.dominates_iff _ _).mp durable _)
        · exact covered record later
    · refine ⟨records :: kept, ?_, ?_, fun record member => ?_⟩
      · rw [filter_cons_of_pos (by simpa using durable)]
        exact List.Forall₂.cons segmentHolds keptHold
      · rw [flatten_cons, flatten_cons]
        exact sublist.append_left records
      · rw [flatten_cons] at member ⊢
        rcases mem_append.mp member with here | later
        · exact Or.inl (mem_append_left _ here)
        · rcases covered record later with stays | below
          · exact Or.inl (mem_append_right _ stays)
          · exact Or.inr below

end EdgeBuffer

end Blaze
