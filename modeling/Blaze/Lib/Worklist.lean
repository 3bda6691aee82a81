import Mathlib.Data.Finset.Card

/-!
# Closing a set with a worklist

A set of items is closed under a successor function by taking the items from a
queue one at a time and queueing every successor that is new.  An item is queued
when it is first seen, so a loop that may see all items of a finite universe once
ends with a closed set.
-/

namespace Blaze.Worklist

variable {α : Type} [DecidableEq α]

/-- The queue and the items seen so far. -/
structure State (α : Type) where
  queue : List α
  seen : List α

/-- See and queue an item, unless it is known. -/
def State.see (state : State α) (item : α) : State α :=
  if item ∈ state.seen then state else ⟨item :: state.queue, item :: state.seen⟩

/-- Take items from the queue until it is empty or the fuel runs out. -/
def close (next : α → List α) : Nat → State α → List α
  | 0, state => state.seen
  | fuel + 1, state =>
      match state.queue with
      | [] => state.seen
      | item :: queue => close next fuel ((next item).foldl State.see { state with queue })

/-- How much work is left: the queued items, and those of the universe that are
still new. -/
def State.left (everything : Finset α) (state : State α) : Nat :=
  state.queue.length + (everything \ state.seen.toFinset).card

/-- Seeing successors adds them, queues the new ones, and leaves as much work as
before. -/
structure Sees (everything : Finset α) (items : List α) (state state' : State α) : Prop where
  seen : ∀ x, x ∈ state'.seen ↔ x ∈ state.seen ∨ x ∈ items
  queue : ∀ x, x ∈ state'.queue ↔ x ∈ state.queue ∨ x ∈ items ∧ x ∉ state.seen
  left : state'.left everything = state.left everything

theorem sees_foldl {everything : Finset α} {items : List α} (known : ∀ x ∈ items, x ∈ everything)
    (state : State α) : Sees everything items state (items.foldl State.see state) := by
  induction items generalizing state with
  | nil => exact ⟨by simp, by simp, rfl⟩
  | cons item items ih =>
    have rest := ih (fun x member => known x (List.mem_cons_of_mem item member)) (state.see item)
    rw [List.foldl_cons]
    by_cases old : item ∈ state.seen
    · have same : state.see item = state := if_pos old
      rw [same] at rest ⊢
      refine ⟨fun x => ?_, fun x => ?_, rest.left⟩
      · rw [rest.seen, List.mem_cons]
        grind
      · rw [rest.queue, List.mem_cons]
        grind
    · have new : state.see item = ⟨item :: state.queue, item :: state.seen⟩ := if_neg old
      rw [new] at rest ⊢
      refine ⟨fun x => ?_, fun x => ?_, rest.left.trans ?_⟩
      · rw [rest.seen]
        grind
      · rw [rest.queue]
        grind
      · -- the item moves from the universe to the queue
        have missing : item ∈ everything \ state.seen.toFinset := by
          simp [old, known item List.mem_cons_self]
        have moved := Finset.card_erase_add_one missing
        unfold State.left
        rw [List.toFinset_cons, Finset.sdiff_insert, List.length_cons]
        omega

/-- With fuel for all the work that is left, every item that is seen has its
successors seen, if that holds for all but the queued ones at the start. -/
theorem closed_close {next : α → List α} {everything : Finset α}
    (known : ∀ item, ∀ x ∈ next item, x ∈ everything) {fuel : Nat} {state : State α}
    (enough : state.left everything ≤ fuel)
    (invariant : ∀ item ∈ state.seen, item ∈ state.queue ∨ ∀ x ∈ next item, x ∈ state.seen) :
    (∀ item ∈ state.seen, item ∈ close next fuel state) ∧
      ∀ item ∈ close next fuel state, ∀ x ∈ next item, x ∈ close next fuel state := by
  induction fuel generalizing state with
  | zero =>
    have empty : state.queue = [] := by
      unfold State.left at enough
      exact List.length_eq_zero_iff.mp (by omega)
    rw [close]
    refine ⟨fun _ member => member, fun item member => ?_⟩
    exact (invariant item member).resolve_left (by simp [empty])
  | succ fuel ih =>
    rw [close]
    cases queued : state.queue with
    | nil =>
      refine ⟨fun _ member => member, fun item member => ?_⟩
      exact (invariant item member).resolve_left (by simp [queued])
    | cons first queue =>
      have sees := sees_foldl (known first) { state with queue }
      dsimp only
      generalize (next first).foldl State.see { state with queue } = after at sees ⊢
      have fuelled : after.left everything ≤ fuel := by
        rw [sees.left]
        unfold State.left at enough ⊢
        rw [queued, List.length_cons] at enough
        dsimp only
        omega
      have kept : ∀ item ∈ after.seen,
          item ∈ after.queue ∨ ∀ x ∈ next item, x ∈ after.seen := by
        intro item member
        rw [sees.queue]
        by_cases old : item ∈ state.seen
        · rcases invariant item old with waiting | done
          · rw [queued] at waiting
            rcases List.mem_cons.mp waiting with rfl | waiting
            · exact Or.inr fun x successor => (sees.seen x).mpr (Or.inr successor)
            · exact Or.inl (Or.inl waiting)
          · exact Or.inr fun x successor => (sees.seen x).mpr (Or.inl (done x successor))
        · exact Or.inl (Or.inr ⟨((sees.seen item).mp member).resolve_left old, old⟩)
      have rest := ih fuelled kept
      exact ⟨fun item member => rest.1 item ((sees.seen item).mpr (Or.inl member)), rest.2⟩

/-- The items queued and seen are all allowed. -/
def State.Within (allowed : α → Prop) (state : State α) : Prop :=
  (∀ item ∈ state.queue, allowed item) ∧ ∀ item ∈ state.seen, allowed item

theorem State.Within.foldl_see {allowed : α → Prop} {items : List α}
    (every : ∀ item ∈ items, allowed item) {state : State α} (within : state.Within allowed) :
    (items.foldl State.see state).Within allowed := by
  induction items generalizing state with
  | nil => exact within
  | cons item items ih =>
    obtain ⟨here, rest⟩ := List.forall_mem_cons.mp every
    apply ih rest
    unfold State.see
    split
    · exact within
    · exact ⟨List.forall_mem_cons.mpr ⟨here, within.1⟩, List.forall_mem_cons.mpr ⟨here, within.2⟩⟩

/-- What is seen belongs to every closed set that contains the start. -/
theorem close_least {next : α → List α} {allowed : α → Prop}
    (closed : ∀ item, allowed item → ∀ x ∈ next item, allowed x) {fuel : Nat} {state : State α}
    (within : state.Within allowed) : ∀ item ∈ close next fuel state, allowed item := by
  induction fuel generalizing state with
  | zero => exact within.2
  | succ fuel ih =>
    rw [close]
    cases queued : state.queue with
    | nil => exact within.2
    | cons first queue =>
      have waiting := within.1
      rw [queued] at waiting
      obtain ⟨here, rest⟩ := List.forall_mem_cons.mp waiting
      apply ih
      exact State.Within.foldl_see (closed first here) ⟨rest, within.2⟩

end Blaze.Worklist
