import Blaze.Storage.MemberIndex

/-!
# The budget of a walk

A walk hands the callback a budget of one more than its cap, in a machine word.  That
is enough for every cap but the largest, at which the budget wraps to zero: the walk
then fetches no children at all and reports the seeds as the whole answer.
-/

namespace Blaze

open CappedWalk

variable {next : NodeId → List NodeId} {cap : Nat} {seeds : List NodeId}

/-- A fresh walk from the seeds that is given up after a number of rounds. -/
def walkWithin (rounds cap : Nat) (seeds : List NodeId) (fetch : NodeId → Nat → List NodeId) :
    Option (Walk NodeId) :=
  (Walk.new cap).expandWithin rounds ((cap + 1) % 2 ^ 64) seeds fetch

/-- The children a callback hands out: the first ones, as many as it is asked for. -/
def firstChildren (next : NodeId → List NodeId) (k : NodeId) (limit : Nat) : List NodeId :=
  (next k).take limit

/-- With a cap below the largest machine word the budget suffices. -/
theorem walkFrom_answers (distinct : ∀ k, (next k).Nodup) (room : cap + 1 < 2 ^ 64)
    (seeds : List NodeId) :
    let walk := walkFrom cap seeds (firstChildren next)
    Answers {x | Reaches next seeds x} cap walk.truncated walk.out :=
  expand_answers distinct (by rw [Nat.mod_eq_of_lt room]; exact Nat.lt_succ_self cap) seeds

/-- With the largest cap the walk ends with the seeds. -/
theorem walkFrom_of_wrapped (next : NodeId → List NodeId) (wrapped : cap + 1 = 2 ^ 64)
    (short : seeds.length ≤ cap) :
    let walk := walkFrom cap seeds (firstChildren next)
    Open walk ∧ walk.cap = cap ∧ ∀ x, x ∈ walk.out ↔ x ∈ seeds := by
  have budget : (cap + 1) % 2 ^ 64 = 0 := by rw [wrapped, Nat.mod_self]
  have nothing : ∀ k, firstChildren next k ((cap + 1) % 2 ^ 64) = [] := by
    intro k
    rw [budget, firstChildren, List.take_zero]
  exact expand_of_fetch_nil nothing short

/-- From seeds that hold all their children nothing else is in reach. -/
theorem reaches_iff_of_closed (closed : ∀ s ∈ seeds, ∀ c ∈ next s, c ∈ seeds) (x : NodeId) :
    Reaches next seeds x ↔ x ∈ seeds :=
  ⟨fun reaches => reaches.induct (fun _ member => member) closed, fun member => ⟨x, member, .refl⟩⟩

/-- A fresh walk ends by itself on every graph, and it collects what is in reach, or as
much of it as fits, exactly when its cap is not the largest machine word or nothing but
the seeds is in reach. -/
theorem walk_answers_iff (next : NodeId → List NodeId) (distinct : ∀ k, (next k).Nodup)
    (seeds : List NodeId) (short : seeds.length < 2 ^ 63) (cap : Nat) (word : cap < 2 ^ 64) :
    let walk := walkFrom cap seeds (firstChildren next)
    (∀ rounds, cap ≤ rounds → walkWithin rounds cap seeds (firstChildren next) = some walk) ∧
      (Answers {x | Reaches next seeds x} cap walk.truncated walk.out ↔
        cap + 1 < 2 ^ 64 ∨ ∀ s ∈ seeds, ∀ c ∈ next s, c ∈ seeds) := by
  intro walk
  refine ⟨fun rounds enough => expandWithin_eq enough _ seeds _, ?_⟩
  by_cases room : cap + 1 < 2 ^ 64
  · exact ⟨fun _ => Or.inl room, fun _ => walkFrom_answers distinct room seeds⟩
  · have wrapped : cap + 1 = 2 ^ 64 := by omega
    obtain ⟨isOpen, capEq, out⟩ := walkFrom_of_wrapped next wrapped
      (show seeds.length ≤ cap by omega)
    constructor
    · intro answers
      refine Or.inr fun s member c child => ?_
      have small : {x | Reaches next seeds x}.encard ≤ cap := by
        by_contra larger
        have truncated := (answers.exceeds larger).1
        rw [isOpen.running] at truncated
        cases truncated
      have reached : Reaches next seeds c := ⟨s, member, .single child⟩
      exact (out c).mp ((answers.fits small).2 c reached)
    · rintro (impossible | closed)
      · exact absurd impossible room
      · have answers := isOpen.answers (R := {x | Reaches next seeds x})
          (fun x => (out x).trans (reaches_iff_of_closed closed x).symm)
        rw [capEq] at answers
        exact answers

/-- Two nodes that lead to each other and share a child, with a cap of two. -/
theorem walk_answers_iff_shared_child :
    let next : NodeId → List NodeId := fun k =>
      if k = 1 then [2, 3] else if k = 2 then [3, 1] else []
    walkWithin 2 2 [1] (firstChildren next) = some (walkFrom 2 [1] (firstChildren next)) ∧
      (walkFrom 2 [1] (firstChildren next)).out = [1, 2] ∧
      Answers {x | Reaches next [1] x} 2 true [1, 2] := by
  intro next
  have distinct : ∀ k, (next k).Nodup := by
    intro k
    dsimp only [next]
    split
    · decide
    · split
      · decide
      · exact List.nodup_nil
  have spec := walk_answers_iff next distinct [1] (by decide) 2 (by decide)
  exact ⟨spec.1 2 (le_refl 2), by decide, spec.2.mpr (Or.inl (by decide))⟩

/-- With the largest cap a walk from a node with one child ends, not truncated, with
the node alone. -/
theorem walk_misses_child :
    let next : NodeId → List NodeId := fun k => if k = 1 then [2] else []
    let cap := 2 ^ 64 - 1
    (walkWithin 1 cap [1] (firstChildren next)).map (fun walk => (walk.truncated, walk.out)) =
        some (false, [1]) ∧
      Reaches next [1] 2 ∧ 2 ≤ cap := by
  refine ⟨by decide, ⟨1, List.mem_singleton_self 1, .single ?_⟩, by decide⟩
  decide

end Blaze
