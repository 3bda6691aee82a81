import Blaze.Lib.PositionalCount
import Blaze.Storage.LevelOrder

/-!
# The tiered stack is a counter

One run of the lowest level is pushed a round, and the policy merges until it has
nothing left to pick.  Below the depth ceiling every merge is a carry: it turns a full
level into one run of the next.  A run of level `l` so stands for `fanout ^ l` rounds,
and the settled stack writes the number of rounds in base `fanout`.
-/

namespace Blaze

open Positional

/-- The levels after the runs of `range` were merged into one. -/
def mergeRange (levels : List Nat) (range : RunRange) : List Nat :=
  levels.take range.start ++ levelAbove (range.window levels) :: levels.drop range.stop

/-- The stacks met in the course of `rounds` rounds.  A round begins once the policy
picks nothing. -/
inductive Reached (fanout maxRuns : Nat) : Nat → List Nat → Prop
  | empty : Reached fanout maxRuns 0 []
  | push {rounds : Nat} {levels : List Nat} (reached : Reached fanout maxRuns rounds levels)
      (settled : pickMerge levels fanout maxRuns = none) :
      Reached fanout maxRuns (rounds + 1) (levels ++ [0])
  | merge {rounds : Nat} {levels : List Nat} {range : RunRange}
      (reached : Reached fanout maxRuns rounds levels)
      (picked : pickMerge levels fanout maxRuns = some range) :
      Reached fanout maxRuns rounds (mergeRange levels range)

variable {fanout maxRuns rounds : Nat} {levels : List Nat} {range : RunRange}

/-! ## Rounds end -/

/-- A merge leaves fewer runs. -/
theorem length_mergeRange (within : range.Within 2 levels.length) :
    (mergeRange levels range).length + 1 ≤ levels.length := by
  unfold RunRange.Within at within
  rw [mergeRange, List.length_append, List.length_cons, List.length_take, List.length_drop]
  omega

/-- The merges of a round come to an end. -/
theorem Reached.settles (reached : Reached fanout maxRuns rounds levels) :
    ∃ settled, Reached fanout maxRuns rounds settled ∧
      pickMerge settled fanout maxRuns = none := by
  induction size : levels.length using Nat.strong_induction_on generalizing levels with
  | h length ih =>
    cases picked : pickMerge levels fanout maxRuns with
    | none => exact ⟨levels, reached, picked⟩
    | some range =>
      apply ih _ ?_ (reached.merge picked) rfl
      rw [← size]
      exact length_mergeRange (pickMerge_within picked)

theorem exists_settled (fanout maxRuns rounds : Nat) :
    ∃ settled, Reached fanout maxRuns rounds settled ∧
      pickMerge settled fanout maxRuns = none := by
  induction rounds with
  | zero => exact Reached.empty.settles
  | succ rounds ih =>
    obtain ⟨settled, reached, nothing⟩ := ih
    exact (reached.push nothing).settles

/-! ## Rounds count -/

/-- A merge of a full level keeps what the runs stand for. -/
theorem IsStep.weight_mergeRange {level : Nat} (two : 2 ≤ fanout)
    (step : IsStep levels range fanout level) (low : levelAbove (range.window levels) < 255) :
    weight fanout (mergeRange levels range) = weight fanout levels := by
  obtain ⟨count, rfl⟩ : ∃ count, fanout = count + 1 := ⟨fanout - 1, by omega⟩
  have raised : levelAbove (range.window levels) = level + 1 := by
    rw [step.window, levelAbove_replicate] at low ⊢
    omega
  have split := RunRange.take_window_drop step.proper levels
  rw [congrArg (weight (count + 1)) split, weight_append, weight_append, step.window,
    weight_replicate, mergeRange, weight_append, weight_cons, raised, pow_succ]
  ring

/-- Along the way the levels stay in order and stand for the number of rounds. -/
theorem Reached.counts (two : 2 ≤ fanout)
    (roomy : ∀ n ≤ rounds, ∀ levels, Reached fanout maxRuns n levels → levels.length < maxRuns)
    (low : ∀ n ≤ rounds, ∀ levels, Reached fanout maxRuns n levels →
      ∀ level ∈ levels, level < 255)
    (reached : Reached fanout maxRuns rounds levels) :
    Descending levels ∧ weight fanout levels = rounds := by
  induction reached with
  | empty => exact ⟨.nil, rfl⟩
  | @push rounds levels reached settled ih =>
    obtain ⟨descending, stands⟩ := ih
      (fun n bound => roomy n (bound.trans (Nat.le_succ _)))
      (fun n bound => low n (bound.trans (Nat.le_succ _)))
    refine ⟨descending.push, ?_⟩
    rw [weight_append, stands]
    rfl
  | @merge rounds levels range reached picked ih =>
    obtain ⟨descending, stands⟩ := ih roomy low
    obtain ⟨count, level, step, several, -, full⟩ := pickMerge_isStep descending picked
    have count_eq : count = fanout := by
      rw [full (roomy rounds le_rfl levels reached), max_eq_left two]
    have below := low rounds le_rfl _ (reached.merge picked) (levelAbove (range.window levels))
      (List.mem_append_right _ List.mem_cons_self)
    subst count_eq
    refine ⟨?_, (step.weight_mergeRange two below).trans stands⟩
    obtain ⟨fewer, rfl⟩ : ∃ fewer, count = fewer + 1 := ⟨count - 1, by omega⟩
    have spliced := step.splice descending
    rwa [← levelAbove_replicate fewer level, ← step.window] at spliced

/-- After `rounds` rounds the settled stack holds, at each level, as many runs as the
digit of `rounds` in base `fanout`, the higher levels first. -/
theorem settled_writes_rounds (fanout maxRuns rounds : Nat) (two : 2 ≤ fanout)
    (roomy : ∀ n ≤ rounds, ∀ levels, Reached fanout maxRuns n levels → levels.length < maxRuns)
    (low : ∀ n ≤ rounds, ∀ levels, Reached fanout maxRuns n levels →
      ∀ level ∈ levels, level < 255) :
    (∃ levels, Reached fanout maxRuns rounds levels ∧ pickMerge levels fanout maxRuns = none) ∧
      ∀ levels, Reached fanout maxRuns rounds levels → pickMerge levels fanout maxRuns = none →
        (∀ level, levels.count level = (Nat.digits fanout rounds).getD level 0) ∧
        levels.Pairwise (fun older newer => newer ≤ older) ∧
        levels.length ≤ (fanout - 1) * (Nat.digits fanout rounds).length := by
  refine ⟨exists_settled fanout maxRuns rounds, ?_⟩
  intro levels reached settled
  obtain ⟨descending, stands⟩ := reached.counts two roomy low
  have small : ∀ level, levels.count level < fanout := by
    intro level
    have short := count_lt_of_pickMerge_eq_none descending settled level
    rwa [max_eq_left two] at short
  refine ⟨?_, descending.ordered, ?_⟩
  · intro level
    rw [← stands]
    exact count_eq_digit two small level
  · rw [← stands]
    exact length_le_digits two small

/-! ## Short executions

A level costs a round at least, so neither the ceiling nor the largest level is met
within as many rounds. -/

theorem levelAbove_le_succ {levels : List Nat} (nonempty : levels ≠ []) :
    ∃ level ∈ levels, levelAbove levels ≤ level + 1 := by
  cases levels with
  | nil => exact absurd rfl nonempty
  | cons level levels =>
    have attained : levels.foldl max level ∈ level :: levels := by
      clear nonempty
      induction levels generalizing level with
      | nil => exact List.mem_cons_self
      | cons next levels ih =>
        rw [List.foldl_cons]
        rcases List.mem_cons.mp (ih (max level next)) with same | inside
        · rw [same]
          rcases max_choice level next with first | second
          · rw [first]
            exact List.mem_cons_self
          · rw [second]
            exact List.mem_cons_of_mem _ List.mem_cons_self
        · exact List.mem_cons_of_mem _ (List.mem_cons_of_mem _ inside)
    exact ⟨_, attained, Nat.min_le_left _ _⟩

/-- Levels and depth together stay below the number of rounds. -/
theorem Reached.bounded (reached : Reached fanout maxRuns rounds levels) :
    levels.length ≤ rounds ∧ ∀ level ∈ levels, level + levels.length ≤ rounds := by
  induction reached with
  | empty => simp
  | @push rounds levels reached settled ih =>
    obtain ⟨short, low⟩ := ih
    rw [List.length_append, List.length_singleton]
    refine ⟨Nat.succ_le_succ short, ?_⟩
    intro level member
    rcases List.mem_append.mp member with old | new
    · exact Nat.succ_le_succ (low level old)
    · rw [List.mem_singleton.mp new, Nat.zero_add]
      exact Nat.succ_le_succ short
  | @merge rounds levels range reached picked ih =>
    obtain ⟨short, low⟩ := ih
    have within := pickMerge_within picked
    have fewer := length_mergeRange within
    refine ⟨(Nat.le_of_succ_le fewer).trans short, ?_⟩
    intro level member
    rcases List.mem_append.mp member with older | rest
    · have bound := low level (List.mem_of_mem_take older)
      omega
    · rcases List.mem_cons.mp rest with rfl | newer
      · obtain ⟨highest, inside, above⟩ :=
          levelAbove_le_succ (RunRange.window_ne_nil within Nat.two_pos)
        have bound := low highest (RunRange.mem_of_mem_window inside)
        omega
      · have bound := low level (List.mem_of_mem_drop newer)
        omega

/-- Three rounds at fanout two leave one run of level one below one of level zero. -/
theorem settled_writes_rounds_three :
    (∃ levels, Reached 2 4 3 levels ∧ pickMerge levels 2 4 = none) ∧
      ∀ levels, Reached 2 4 3 levels → pickMerge levels 2 4 = none →
        (∀ level, levels.count level = (Nat.digits 2 3).getD level 0) ∧
        levels.Pairwise (fun older newer => newer ≤ older) ∧
        levels.length ≤ (2 - 1) * (Nat.digits 2 3).length := by
  apply settled_writes_rounds 2 4 3 le_rfl
  · intro n bound levels reached
    exact (reached.bounded.1.trans bound).trans_lt (by decide)
  · intro n bound levels reached level member
    have small := reached.bounded.2 level member
    omega

end Blaze
