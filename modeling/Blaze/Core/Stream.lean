import Mathlib.Order.MinMax
import Std.Data.TreeMap

/-!
# Where a worker stands in its input stream

A stream position maps each partition to the highest offset applied, and offset
zero means that nothing was applied.  Positions are compared partition by
partition, so their order is partial.
-/

namespace Blaze

variable {p : PartitionId} {position : StreamPosition}

/-- A partition of the input stream. -/
abbrev PartitionId := Nat

/-- Highest offset applied per partition, inclusive. -/
structure StreamPosition where
  offsets : Std.TreeMap PartitionId Nat

namespace StreamPosition

def new : StreamPosition :=
  ⟨∅⟩

/-- Highest offset applied to `partition`; zero if nothing has been. -/
def get (position : StreamPosition) (partition : PartitionId) : Nat :=
  position.offsets.getD partition 0

/-- Record that `partition` has been applied through `offset`; a partition never
walks backwards. -/
def advance (position : StreamPosition) (partition : PartitionId) (offset : Nat) :
    StreamPosition :=
  ⟨position.offsets.insert partition (max (position.get partition) offset)⟩

/-- A single-partition position. -/
def single (offset : Nat) : StreamPosition :=
  new.advance 0 offset

/-- Take the per-partition maximum of both. -/
def merge (position other : StreamPosition) : StreamPosition :=
  other.offsets.toList.foldl (fun position entry => position.advance entry.1 entry.2) position

/-- Whether every partition in `other` is at or behind `position`. -/
def dominates (position other : StreamPosition) : Bool :=
  other.offsets.toList.all fun entry => entry.2 ≤ position.get entry.1

def isEmpty (position : StreamPosition) : Bool :=
  position.offsets.isEmpty

def len (position : StreamPosition) : Nat :=
  position.offsets.size

/-- The scalar equivalent, for a position that is empty or covers partition 0
alone. -/
def asScalar (position : StreamPosition) : Option Nat :=
  match position.len with
  | 0 => some 0
  | 1 => position.offsets[0]?
  | _ => none

/-- The position of a list of partitions and offsets. -/
def fromList (entries : List (PartitionId × Nat)) : StreamPosition :=
  entries.foldl (fun position entry => position.advance entry.1 entry.2) new

def toString (position : StreamPosition) : String :=
  if position.isEmpty then
    "(nothing)"
  else
    ",".intercalate (position.offsets.toList.map fun entry => s!"{entry.1}:{entry.2}")

/-! ## Reading a position -/

@[simp]
theorem get_new (partition : PartitionId) : new.get partition = 0 := by
  simp [get, new]

theorem get_advance (position : StreamPosition) (q : PartitionId) (offset : Nat) (p : PartitionId) :
    (position.advance q offset).get p =
      if p = q then max (position.get p) offset else position.get p := by
  unfold get advance
  rw [Std.TreeMap.getD_insert]
  by_cases same : p = q
  · subst same
    simp [get]
  · simp [same, Ne.symm same]

@[simp]
theorem get_advance_self (position : StreamPosition) (p : PartitionId) (offset : Nat) :
    (position.advance p offset).get p = max (position.get p) offset := by
  rw [get_advance, if_pos rfl]

theorem get_advance_of_ne (position : StreamPosition) {q : PartitionId} (offset : Nat)
    (different : p ≠ q) : (position.advance q offset).get p = position.get p := by
  rw [get_advance, if_neg different]

theorem get_le_get_advance (position : StreamPosition) (q : PartitionId) (offset : Nat)
    (p : PartitionId) : position.get p ≤ (position.advance q offset).get p := by
  rw [get_advance]
  split
  · exact le_max_left _ _
  · exact le_rfl

@[simp]
theorem get_single_zero (offset : Nat) : (single offset).get 0 = offset := by
  simp [single]

theorem get_single_of_ne (offset : Nat) (other : p ≠ 0) : (single offset).get p = 0 := by
  rw [single, get_advance_of_ne _ _ other, get_new]

/-- Advancing through a list of entries reaches, on each partition, at most what
`bound` allows, exactly when the start and every entry do. -/
theorem foldl_advance_le_iff (entries : List (PartitionId × Nat)) (position : StreamPosition)
    (p : PartitionId) (bound : Nat) :
    (entries.foldl (fun position entry => position.advance entry.1 entry.2) position).get p ≤
        bound ↔
      position.get p ≤ bound ∧ ∀ offset, (p, offset) ∈ entries → offset ≤ bound := by
  induction entries generalizing position with
  | nil => simp
  | cons entry entries ih =>
    rw [List.foldl_cons, ih, get_advance]
    by_cases same : p = entry.1
    · subst same
      rw [if_pos rfl, max_le_iff, and_assoc]
      constructor
      · rintro ⟨start, here, rest⟩
        refine ⟨start, fun offset member => ?_⟩
        rcases List.mem_cons.mp member with first | later
        · rw [← first] at here
          exact here
        · exact rest offset later
      · rintro ⟨start, all⟩
        exact ⟨start, all entry.2 List.mem_cons_self, fun offset later =>
          all offset (List.mem_cons_of_mem entry later)⟩
    · rw [if_neg same]
      constructor
      · rintro ⟨start, rest⟩
        refine ⟨start, fun offset member => ?_⟩
        rcases List.mem_cons.mp member with first | later
        · exact absurd (congrArg Prod.fst first) same
        · exact rest offset later
      · rintro ⟨start, all⟩
        exact ⟨start, fun offset later => all offset (List.mem_cons_of_mem entry later)⟩

/-- Every entry of a position is what `get` reads there. -/
theorem mem_toList_iff (position : StreamPosition) (p : PartitionId) (offset : Nat) :
    (p, offset) ∈ position.offsets.toList ↔ position.offsets[p]? = some offset :=
  Std.TreeMap.mem_toList_iff_getElem?_eq_some

theorem get_of_mem_toList {offset : Nat} (entry : (p, offset) ∈ position.offsets.toList) :
    position.get p = offset := by
  rw [mem_toList_iff] at entry
  rw [get, Std.TreeMap.getD_eq_getD_getElem?, entry]
  rfl

theorem mem_toList_of_get_ne (applied : position.get p ≠ 0) :
    (p, position.get p) ∈ position.offsets.toList := by
  rw [mem_toList_iff]
  unfold get at applied ⊢
  rw [Std.TreeMap.getD_eq_getD_getElem?] at applied ⊢
  cases stored : position.offsets[p]? with
  | none =>
    rw [stored] at applied
    exact absurd rfl applied
  | some offset => rfl

/-- Whether all entries of a position are at most `bound` is a statement about
`get`. -/
theorem forall_entries_iff (position : StreamPosition) (bound : PartitionId → Nat) :
    (∀ p offset, (p, offset) ∈ position.offsets.toList → offset ≤ bound p) ↔
      ∀ p, position.get p ≤ bound p := by
  constructor
  · intro entries p
    by_cases applied : position.get p = 0
    · rw [applied]
      exact Nat.zero_le _
    · exact entries p _ (mem_toList_of_get_ne applied)
  · intro everywhere p offset entry
    rw [← get_of_mem_toList entry]
    exact everywhere p

theorem dominates_iff (position other : StreamPosition) :
    position.dominates other = true ↔ ∀ p, other.get p ≤ position.get p := by
  rw [← forall_entries_iff other position.get, dominates, List.all_eq_true]
  constructor
  · intro all p offset entry
    simpa using all (p, offset) entry
  · rintro entries ⟨p, offset⟩ entry
    simpa using entries p offset entry

@[simp]
theorem get_merge (position other : StreamPosition) (p : PartitionId) :
    (position.merge other).get p = max (position.get p) (other.get p) := by
  apply eq_of_forall_ge_iff
  intro bound
  rw [merge, foldl_advance_le_iff, max_le_iff]
  constructor
  · rintro ⟨start, entries⟩
    refine ⟨start, ?_⟩
    by_cases applied : other.get p = 0
    · rw [applied]
      exact Nat.zero_le _
    · exact entries _ (mem_toList_of_get_ne applied)
  · rintro ⟨start, here⟩
    refine ⟨start, fun offset entry => ?_⟩
    rw [← get_of_mem_toList entry]
    exact here

theorem dominates_refl (position : StreamPosition) : position.dominates position = true := by
  rw [dominates_iff]
  exact fun p => le_rfl

theorem get_eq_zero_of_isEmpty (empty : position.isEmpty = true) (p : PartitionId) :
    position.get p = 0 := by
  unfold isEmpty at empty
  rw [get, Std.TreeMap.getD_of_isEmpty empty]

end StreamPosition

/-- What stream a set of offsets is measured in. -/
structure StreamId where
  source : String
  name : String
  group : Option String
  deriving DecidableEq, Repr

namespace StreamId

/-- Whether offsets from the two mean the same thing; the consumer group does
not matter. -/
def sameStream (id other : StreamId) : Bool :=
  id.source == other.source && id.name == other.name

def toString (id : StreamId) : String :=
  match id.group with
  | some group => s!"{id.source}://{id.name} (group {group})"
  | none => s!"{id.source}://{id.name}"

end StreamId

end Blaze
