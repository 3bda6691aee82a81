import Mathlib.Data.List.Destutter
import Mathlib.Data.List.Sort

/-!
# Sorting and removing adjacent duplicates

The usual way to canonicalise a vector in place: sort it, then drop every entry
equal to its predecessor.  The result is the strictly ascending list of the
entries.
-/

namespace SortDedup

universe u

variable {α : Type u} [LinearOrder α]

/-- Drop every entry that equals the one before it. -/
def dedup (entries : List α) : List α :=
  entries.destutter (· ≠ ·)

/-- Sort, then drop adjacent duplicates. -/
def sortDedup (entries : List α) : List α :=
  dedup (entries.insertionSort (· ≤ ·))

/-- Dropping an entry equal to its predecessor loses no value. -/
theorem mem_destutter' (head : α) (tail : List α) (x : α) :
    x ∈ tail.destutter' (· ≠ ·) head ↔ x ∈ head :: tail := by
  induction tail generalizing head with
  | nil => simp
  | cons next tail ih =>
    by_cases same : head = next
    · subst same
      rw [List.destutter'_cons_neg _ (by simp), ih]
      simp
    · rw [List.destutter'_cons_pos _ same]
      simp only [List.mem_cons, ih]

theorem destutter'_ascending (head : α) (tail : List α)
    (ascending : (head :: tail).Pairwise (· ≤ ·)) :
    (tail.destutter' (· ≠ ·) head).Pairwise (· < ·) := by
  induction tail generalizing head with
  | nil => simp
  | cons next tail ih =>
    obtain ⟨headLe, tailAscending⟩ := List.pairwise_cons.mp ascending
    by_cases same : head = next
    · subst same
      rw [List.destutter'_cons_neg _ (by simp)]
      exact ih head tailAscending
    · rw [List.destutter'_cons_pos _ same]
      refine List.pairwise_cons.mpr ⟨fun x inTail => ?_, ih next tailAscending⟩
      have headNext := lt_of_le_of_ne (headLe next (by simp)) same
      rcases List.mem_cons.mp ((mem_destutter' next tail x).mp inTail) with rfl | inRest
      · exact headNext
      · exact headNext.trans_le ((List.pairwise_cons.mp tailAscending).1 x inRest)

theorem dedup_ascending {entries : List α} (ascending : entries.Pairwise (· ≤ ·)) :
    (dedup entries).Pairwise (· < ·) := by
  cases entries with
  | nil => exact List.Pairwise.nil
  | cons head tail => exact destutter'_ascending head tail ascending

@[simp]
theorem mem_dedup (entries : List α) (x : α) : x ∈ dedup entries ↔ x ∈ entries := by
  cases entries with
  | nil => rfl
  | cons head tail => exact mem_destutter' head tail x

@[simp]
theorem mem_sortDedup (entries : List α) (x : α) : x ∈ sortDedup entries ↔ x ∈ entries := by
  rw [sortDedup, mem_dedup, List.mem_insertionSort]

theorem sortDedup_ascending (entries : List α) : (sortDedup entries).Pairwise (· < ·) :=
  dedup_ascending (List.pairwise_insertionSort _ entries)

end SortDedup
