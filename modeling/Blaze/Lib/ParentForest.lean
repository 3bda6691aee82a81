import Blaze.Lib.RootMap
import Mathlib.Algebra.Order.Group.Nat

/-!
# Parent-pointer forests over the natural numbers

A union-find structure in which every parent pointer goes to a smaller number
needs no rank and no acyclicity argument: chasing pointers from `x` stops after
at most `x` steps.  This file develops the root map of such a forest and the two
updates a union-find makes to it, path compression and linking.
-/

namespace ParentForest

open RootMap

variable {parent : ℕ → Option ℕ} {node x target fuel : ℕ}

/-- Follow parent pointers for at most `fuel` steps, counting them. -/
def walk (parent : ℕ → Option ℕ) : ℕ → ℕ → ℕ → ℕ × ℕ
  | 0, x, depth => (x, depth)
  | fuel + 1, x, depth =>
      match parent x with
      | none => (x, depth)
      | some p => walk parent fuel p (depth + 1)

/-- The node at which the chain of parents above `x` ends. -/
def root (parent : ℕ → Option ℕ) (x : ℕ) : ℕ :=
  (walk parent (x + 1) x 0).1

/-- Follow parent pointers to the end of the chain; there is no result when that takes
more rounds than given. -/
def walkWithin (parent : ℕ → Option ℕ) : ℕ → ℕ → ℕ → Option (ℕ × ℕ)
  | 0, _, _ => none
  | rounds + 1, x, depth =>
      match parent x with
      | none => some (x, depth)
      | some p => walkWithin parent rounds p (depth + 1)

/-- Every parent is smaller than its child. -/
def Decreasing (parent : ℕ → Option ℕ) : Prop :=
  ∀ ⦃x p⦄, parent x = some p → p < x

/-- Change the parent of one node. -/
def repoint (parent : ℕ → Option ℕ) (node target : ℕ) : ℕ → Option ℕ :=
  fun x => if x = node then some target else parent x

@[simp]
theorem repoint_self (parent : ℕ → Option ℕ) (node target : ℕ) :
    repoint parent node target node = some target := by
  simp [repoint]

theorem repoint_of_ne (other : x ≠ node) (target : ℕ) :
    repoint parent node target x = parent x := by
  simp [repoint, other]

theorem Decreasing.repoint (decreasing : Decreasing parent) (smaller : target < node) :
    Decreasing (repoint parent node target) := by
  intro x p stored
  by_cases same : x = node
  · subst same
    rw [repoint_self] at stored
    cases stored
    exact smaller
  · rw [repoint_of_ne same] at stored
    exact decreasing stored

/-- The depth counter does not influence where a walk ends. -/
theorem walk_fst_depth (parent : ℕ → Option ℕ) (fuel x depth depth' : ℕ) :
    (walk parent fuel x depth).1 = (walk parent fuel x depth').1 := by
  induction fuel generalizing x depth depth' with
  | zero => rfl
  | succ fuel ih =>
    cases stored : parent x with
    | none => simp [walk, stored]
    | some p => simpa [walk, stored] using ih p (depth + 1) (depth' + 1)

/-- Any fuel above the starting node is enough. -/
theorem walk_eq_root (decreasing : Decreasing parent) (enough : x < fuel) (depth : ℕ) :
    (walk parent fuel x depth).1 = root parent x := by
  -- both walks chase the same pointers, so compare them at every sufficient fuel
  have agree : ∀ fuel fuel' x depth, x < fuel → x < fuel' →
      (walk parent fuel x depth).1 = (walk parent fuel' x depth).1 := by
    intro fuel
    induction fuel with
    | zero => intro fuel' x depth impossible; omega
    | succ fuel ih =>
      intro fuel' x depth enough enough'
      obtain ⟨fuel', rfl⟩ : ∃ n, fuel' = n + 1 := ⟨fuel' - 1, by omega⟩
      cases stored : parent x with
      | none => simp [walk, stored]
      | some p =>
        have smaller := decreasing stored
        simpa [walk, stored] using ih fuel' p (depth + 1) (by omega) (by omega)
  rw [root, walk_fst_depth parent fuel x depth 0]
  exact agree fuel (x + 1) x 0 enough (by omega)

/-- A walk ends by itself within as many rounds as there are smaller nodes, and one. -/
theorem walkWithin_eq (decreasing : Decreasing parent) {rounds : ℕ} (enough : x < rounds)
    (fuelled : x < fuel) (depth : ℕ) :
    walkWithin parent rounds x depth = some (walk parent fuel x depth) := by
  induction rounds generalizing fuel x depth with
  | zero => omega
  | succ rounds ih =>
    obtain ⟨fuel, rfl⟩ : ∃ n, fuel = n + 1 := ⟨fuel - 1, by omega⟩
    cases stored : parent x with
    | none => simp [walkWithin, walk, stored]
    | some p =>
      have smaller := decreasing stored
      simpa [walkWithin, walk, stored] using ih (by omega) (by omega) (depth + 1)

theorem root_of_none (stored : parent x = none) : root parent x = x := by
  simp [root, walk, stored]

section Decreasing

variable (decreasing : Decreasing parent)

include decreasing

theorem root_of_some {p : ℕ} (stored : parent x = some p) : root parent x = root parent p := by
  have smaller := decreasing stored
  have unfolded : root parent x = (walk parent x p 1).1 := by simp [root, walk, stored]
  rw [unfolded]
  exact walk_eq_root decreasing smaller 1

/-- Induction along the chain of parents. -/
theorem chain_induction {motive : ℕ → Prop} (top : ∀ x, parent x = none → motive x)
    (link : ∀ x p, parent x = some p → motive p → motive x) (x : ℕ) : motive x := by
  induction x using Nat.strong_induction_on with
  | _ x ih =>
    cases stored : parent x with
    | none => exact top x stored
    | some p => exact link x p stored (ih p (decreasing stored))

theorem parent_root (x : ℕ) : parent (root parent x) = none := by
  induction x using chain_induction decreasing with
  | top x stored => rw [root_of_none stored, stored]
  | link x p stored ih => rw [root_of_some decreasing stored, ih]

theorem root_le (x : ℕ) : root parent x ≤ x := by
  induction x using chain_induction decreasing with
  | top x stored => rw [root_of_none stored]
  | link x p stored ih =>
    rw [root_of_some decreasing stored]
    exact ih.trans (decreasing stored).le

theorem isRootMap_root : IsRootMap (root parent) where
  le_self := root_le decreasing
  idem x := root_of_none (parent_root decreasing x)

theorem root_eq_self_iff (x : ℕ) : root parent x = x ↔ parent x = none := by
  constructor
  · intro fixed
    rw [← fixed]
    exact parent_root decreasing x
  · exact root_of_none

/-- Path compression: pointing a node at any smaller node of its own tree leaves
every root where it was. -/
theorem root_repoint (smaller : target < node) (sameTree : root parent target = root parent node)
    (x : ℕ) : root (repoint parent node target) x = root parent x := by
  have decreasing' := decreasing.repoint smaller
  have moved : parent node ≠ none := by
    intro top
    have fixed := root_of_none top
    have low := root_le decreasing target
    omega
  induction x using Nat.strong_induction_on with
  | _ x ih =>
    by_cases same : x = node
    · subst same
      rw [root_of_some decreasing' (repoint_self parent x target), ih target smaller, sameTree]
    · cases stored : parent x with
      | none =>
        rw [root_of_none stored, root_of_none (by rw [repoint_of_ne same, stored])]
      | some p =>
        rw [root_of_some decreasing stored,
          root_of_some decreasing' (by rw [repoint_of_ne same, stored]),
          ih p (decreasing stored)]

/-- Linking: giving a root a smaller root as parent merges the two classes. -/
theorem root_repoint_link {child top : ℕ} (smaller : top < child) (childRoot : parent child = none)
    (topRoot : parent top = none) (x : ℕ) :
    root (repoint parent child top) x = link (root parent) child top x := by
  have decreasing' := decreasing.repoint smaller
  have fixedChild := root_of_none childRoot
  have fixedTop := root_of_none topRoot
  have unfolded : ∀ y, link (root parent) child top y =
      if root parent y = child then top else root parent y := by
    intro y
    simp [link, fixedChild, fixedTop, max_eq_left smaller.le, min_eq_right smaller.le]
  rw [unfolded]
  induction x using Nat.strong_induction_on with
  | _ x ih =>
    by_cases same : x = child
    · subst same
      have topStays : repoint parent x top top = none := by
        rw [repoint_of_ne smaller.ne, topRoot]
      rw [root_of_some decreasing' (repoint_self parent x top), root_of_none topStays,
        if_pos fixedChild]
    · cases stored : parent x with
      | none =>
        rw [root_of_none stored, if_neg same, root_of_none (by rw [repoint_of_ne same, stored])]
      | some p =>
        rw [root_of_some decreasing stored,
          root_of_some decreasing' (by rw [repoint_of_ne same, stored]),
          ih p (decreasing stored)]

end Decreasing

end ParentForest
