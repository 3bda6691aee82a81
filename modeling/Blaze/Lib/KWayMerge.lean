import Mathlib.Data.List.Sort

/-!
# Merging sorted runs

A merge over cursors: look at the head of every run, take the first one with the
least key, and repeat until all runs are empty.
-/

namespace KWayMerge

universe u v

variable {α : Type u} {κ : Type v} [LinearOrder κ] (key : α → κ)

/-- The first head of least key, with the runs that remain after taking it. -/
def pickMin : List (List α) → Option (α × List (List α))
  | [] => none
  | [] :: runs => (pickMin runs).map fun picked => (picked.1, [] :: picked.2)
  | (a :: run) :: runs =>
      match pickMin runs with
      | none => some (a, run :: runs)
      | some (b, rest) =>
          if key b < key a then some (b, (a :: run) :: rest) else some (a, run :: runs)

/-- Take at most `count` least heads. -/
def mergeLoop : Nat → List (List α) → List α
  | 0, _ => []
  | count + 1, runs =>
      match pickMin key runs with
      | none => []
      | some (a, rest) => a :: mergeLoop count rest

/-- Merge the runs. -/
def merge (runs : List (List α)) : List α :=
  mergeLoop key runs.flatten.length runs

variable {key}

theorem pickMin_none {runs : List (List α)} (nothing : pickMin key runs = none) :
    runs.flatten = [] := by
  induction runs with
  | nil => rfl
  | cons run runs ih =>
    cases run with
    | nil =>
      simp only [pickMin, Option.map_eq_none_iff] at nothing
      simpa using ih nothing
    | cons a run =>
      simp only [pickMin] at nothing
      split at nothing
      · cases nothing
      · split at nothing <;> cases nothing

/-- Taking the least head removes one entry and nothing else. -/
theorem pickMin_perm {runs rest : List (List α)} {a : α}
    (picked : pickMin key runs = some (a, rest)) : (a :: rest.flatten).Perm runs.flatten := by
  induction runs generalizing a rest with
  | nil => cases picked
  | cons run runs ih =>
    cases run with
    | nil =>
      simp only [pickMin, Option.map_eq_some_iff] at picked
      obtain ⟨⟨b, rest'⟩, found, same⟩ := picked
      cases same
      simpa using ih found
    | cons b run =>
      simp only [pickMin] at picked
      split at picked
      · cases picked
        exact List.Perm.refl _
      · next c rest' found =>
          split at picked
          · cases picked
            have tail := ih found
            simp only [List.flatten_cons, List.cons_append]
            calc (a :: b :: (run ++ rest'.flatten)).Perm (b :: a :: (run ++ rest'.flatten)) :=
                  List.Perm.swap ..
              _ |>.Perm (b :: (run ++ a :: rest'.flatten)) :=
                  (List.perm_middle.symm).cons b
              _ |>.Perm (b :: (run ++ runs.flatten)) := (tail.append_left run).cons b
          · cases picked
            exact List.Perm.refl _

theorem mergeLoop_perm {count : Nat} {runs : List (List α)}
    (enough : runs.flatten.length ≤ count) : (mergeLoop key count runs).Perm runs.flatten := by
  induction count generalizing runs with
  | zero =>
    have empty : runs.flatten = [] := List.length_eq_zero_iff.mp (Nat.le_zero.mp enough)
    rw [empty]
    exact List.Perm.refl _
  | succ count ih =>
    cases picked : pickMin key runs with
    | none => simp [mergeLoop, picked, pickMin_none picked]
    | some found =>
      obtain ⟨a, rest⟩ := found
      have perm := pickMin_perm picked
      have shorter : rest.flatten.length ≤ count := by
        have lengths := perm.length_eq
        simp only [List.length_cons] at lengths
        omega
      simp only [mergeLoop, picked]
      exact ((ih shorter).cons a).trans perm

/-- Merging neither loses nor repeats an entry. -/
theorem merge_perm (runs : List (List α)) : (merge key runs).Perm runs.flatten :=
  mergeLoop_perm le_rfl

theorem mem_merge {runs : List (List α)} {a : α} : a ∈ merge key runs ↔ ∃ run ∈ runs, a ∈ run := by
  rw [(merge_perm runs).mem_iff, List.mem_flatten]

/-- Every run ascends. -/
def Ascending (key : α → κ) (runs : List (List α)) : Prop :=
  ∀ run ∈ runs, run.Pairwise fun a b => key a ≤ key b

/-- The picked head is least among everything that remains, and the remaining
runs still ascend. -/
theorem pickMin_spec {runs rest : List (List α)} {a : α} (ascending : Ascending key runs)
    (picked : pickMin key runs = some (a, rest)) :
    (∀ b ∈ rest.flatten, key a ≤ key b) ∧ Ascending key rest := by
  induction runs generalizing a rest with
  | nil => cases picked
  | cons run runs ih =>
    have tailAscending : Ascending key runs := fun r member =>
      ascending r (List.mem_cons_of_mem run member)
    cases run with
    | nil =>
      simp only [pickMin, Option.map_eq_some_iff] at picked
      obtain ⟨⟨b, rest'⟩, found, same⟩ := picked
      cases same
      obtain ⟨least, restAscending⟩ := ih tailAscending found
      refine ⟨by simpa using least, ?_⟩
      intro r member
      rcases List.mem_cons.mp member with rfl | member
      · exact List.Pairwise.nil
      · exact restAscending r member
    | cons b run =>
      have headAscending := List.pairwise_cons.mp (ascending (b :: run) List.mem_cons_self)
      simp only [pickMin] at picked
      split at picked
      · next nothing =>
          cases picked
          have empty := pickMin_none nothing
          refine ⟨fun c member => ?_, ?_⟩
          · rw [List.flatten_cons, empty, List.append_nil] at member
            exact headAscending.1 c member
          · intro r member
            rcases List.mem_cons.mp member with rfl | member
            · exact headAscending.2
            · exact tailAscending r member
      · next c rest' found =>
          obtain ⟨least, restAscending⟩ := ih tailAscending found
          have tailPerm := pickMin_perm found
          split at picked
          · next smaller =>
              cases picked
              refine ⟨fun d member => ?_, ?_⟩
              · rw [List.flatten_cons, List.mem_append] at member
                rcases member with member | member
                · rcases List.mem_cons.mp member with rfl | member
                  · exact smaller.le
                  · exact smaller.le.trans (headAscending.1 d member)
                · exact least d member
              · intro r member
                rcases List.mem_cons.mp member with rfl | member
                · exact ascending _ List.mem_cons_self
                · exact restAscending r member
          · next larger =>
              cases picked
              have order := not_lt.mp larger
              refine ⟨fun d member => ?_, ?_⟩
              · rw [List.flatten_cons, List.mem_append] at member
                rcases member with member | member
                · exact headAscending.1 d member
                · rcases List.mem_cons.mp (tailPerm.mem_iff.mpr member) with rfl | member
                  · exact order
                  · exact order.trans (least d member)
              · intro r member
                rcases List.mem_cons.mp member with rfl | member
                · exact headAscending.2
                · exact tailAscending r member

theorem mergeLoop_ascending {count : Nat} {runs : List (List α)}
    (enough : runs.flatten.length ≤ count) (ascending : Ascending key runs) :
    (mergeLoop key count runs).Pairwise fun a b => key a ≤ key b := by
  induction count generalizing runs with
  | zero => exact List.Pairwise.nil
  | succ count ih =>
    cases picked : pickMin key runs with
    | none => simp [mergeLoop, picked]
    | some found =>
      obtain ⟨a, rest⟩ := found
      have perm := pickMin_perm picked
      obtain ⟨least, restAscending⟩ := pickMin_spec ascending picked
      have shorter : rest.flatten.length ≤ count := by
        have lengths := perm.length_eq
        simp only [List.length_cons] at lengths
        omega
      simp only [mergeLoop, picked]
      refine List.pairwise_cons.mpr ⟨fun b member => ?_, ih shorter restAscending⟩
      exact least b ((mergeLoop_perm shorter).mem_iff.mp member)

/-- Merging ascending runs gives an ascending list. -/
theorem merge_ascending {runs : List (List α)} (ascending : Ascending key runs) :
    (merge key runs).Pairwise fun a b => key a ≤ key b :=
  mergeLoop_ascending le_rfl ascending

end KWayMerge
