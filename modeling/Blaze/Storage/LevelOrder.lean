import Blaze.Storage.Stretches
import Blaze.Storage.Stack

/-!
# Levels in order

Levels never rise from older to newer runs.  The policy then picks a step of the
stack: runs of one level, with strictly higher ones below and none higher above.  The
run that replaces them is at most one level up, so the order stays.
-/

namespace Blaze

open List

variable {level : Nat} {levels : List Nat} {range stretch : RunRange}

/-- The levels, oldest first, never rise, and each fits a byte. -/
structure Descending (levels : List Nat) : Prop where
  ordered : levels.Pairwise fun older newer => newer ≤ older
  bytes : ∀ level ∈ levels, level ≤ 255

/-- The level of a run merged from runs of these levels. -/
def levelAbove (levels : List Nat) : Nat :=
  match levels with
  | [] => 0
  | level :: levels => min (levels.foldl max level + 1) 255

theorem mergedLevel_eq_levelAbove (inputs : List LocalRun) :
    mergedLevel inputs = levelAbove (inputs.map LocalRun.level) :=
  rfl

theorem levelAbove_le (levels : List Nat) : levelAbove levels ≤ 255 := by
  cases levels with
  | nil => exact Nat.zero_le 255
  | cons level levels => exact Nat.min_le_right _ 255

/-- Runs of one level merge into a run of the next, as far as a byte goes. -/
theorem levelAbove_replicate (count level : Nat) :
    levelAbove (List.replicate (count + 1) level) = min (level + 1) 255 := by
  have highest : (List.replicate count level).foldl max level = level := by
    induction count with
    | zero => rfl
    | succ count ih =>
      rw [replicate_succ, foldl_cons, max_self]
      exact ih
  rw [replicate_succ, levelAbove, highest]

/-- The positions of `range` hold `count` runs of one level, with strictly higher
levels below and none higher above. -/
structure IsStep (levels : List Nat) (range : RunRange) (count level : Nat) : Prop where
  proper : range.start ≤ range.stop
  window : range.window levels = List.replicate count level
  below : ∀ other ∈ levels.take range.start, level < other
  above : ∀ other ∈ levels.drop range.stop, other ≤ level

theorem Descending.nil : Descending [] :=
  ⟨List.Pairwise.nil, by simp⟩

theorem Descending.singleton (byte : level ≤ 255) : Descending [level] :=
  ⟨pairwise_singleton _ _, by simpa using byte⟩

/-- A new run at the lowest level goes on top. -/
theorem Descending.push (descending : Descending levels) : Descending (levels ++ [0]) := by
  constructor
  · rw [pairwise_append]
    refine ⟨descending.ordered, pairwise_singleton _ _, ?_⟩
    intro older _ newer member
    rw [mem_singleton.mp member]
    exact Nat.zero_le older
  · intro level member
    rcases mem_append.mp member with old | new
    · exact descending.bytes level old
    · rw [mem_singleton.mp new]
      exact Nat.zero_le 255

/-- A run of the lowest level on top of a stack does not disturb its steps. -/
theorem IsStep.push {count : Nat} (step : IsStep levels range count level)
    (inside : range.stop ≤ levels.length) : IsStep (levels ++ [0]) range count level := by
  refine ⟨step.proper, ?_, ?_, ?_⟩
  · rw [RunRange.window_concat 0 inside]
    exact step.window
  · rw [take_append_of_le_length (step.proper.trans inside)]
    exact step.below
  · intro other member
    rw [drop_append_of_le_length inside] at member
    rcases mem_append.mp member with old | new
    · exact step.above other old
    · rw [mem_singleton.mp new]
      exact Nat.zero_le level

/-- A step replaced by a run of the next level leaves the levels in order. -/
theorem IsStep.splice {count : Nat} (step : IsStep levels range (count + 1) level)
    (descending : Descending levels) :
    Descending (levels.take range.start ++ min (level + 1) 255 :: levels.drop range.stop) := by
  have split := RunRange.take_window_drop step.proper levels
  have ordered := descending.ordered
  rw [split, append_assoc, pairwise_append, pairwise_append] at ordered
  obtain ⟨older, ⟨-, newer, -⟩, across⟩ := ordered
  have byte : level ≤ 255 := by
    have member : level ∈ range.window levels := by
      rw [step.window]
      exact mem_replicate.mpr ⟨Nat.succ_ne_zero count, rfl⟩
    exact descending.bytes _ (RunRange.mem_of_mem_window member)
  constructor
  · rw [pairwise_append, pairwise_cons]
    refine ⟨older, ⟨?_, newer⟩, ?_⟩
    · intro other member
      exact le_min ((step.above other member).trans (Nat.le_succ level))
        ((step.above other member).trans byte)
    · intro other member next inside
      rcases mem_cons.mp inside with rfl | inside
      · exact (Nat.min_le_left _ _).trans (step.below other member)
      · exact across other member next (mem_append_right _ inside)
  · intro other member
    rcases mem_append.mp member with inside | rest
    · exact descending.bytes other (mem_of_mem_take inside)
    · rcases mem_cons.mp rest with rfl | inside
      · exact Nat.min_le_right _ _
      · exact descending.bytes other (mem_of_mem_drop inside)

/-! ## What the policy picks -/

theorem Descending.le_of_getElem? (descending : Descending levels) {i j older newer : Nat}
    (order : i ≤ j) (atOlder : levels[i]? = some older) (atNewer : levels[j]? = some newer) :
    newer ≤ older := by
  rcases order.eq_or_lt with rfl | before
  · cases atOlder.symm.trans atNewer
    exact le_rfl
  · obtain ⟨inside, rfl⟩ := List.getElem?_eq_some_iff.mp atNewer
    obtain ⟨_, rfl⟩ := List.getElem?_eq_some_iff.mp atOlder
    exact pairwise_iff_getElem.mp descending.ordered i j (before.trans inside) inside before

theorem IsStretch.getElem?_start (found : IsStretch levels stretch) :
    levels[stretch.start]? = some (levels.getD stretch.start 0) := by
  have inside := found.nonempty.trans_le found.inside
  rw [getD_eq_getElem?_getD, getElem?_eq_getElem inside, Option.getD_some]

/-- A longest stretch cut short at its end is a step of levels in order. -/
theorem IsStretch.isStep {stop : Nat} (found : IsStretch levels stretch)
    (descending : Descending levels) (proper : stretch.start ≤ stop) (stops : stop ≤ stretch.stop) :
    IsStep levels ⟨stretch.start, stop⟩ (stop - stretch.start)
      (levels.getD stretch.start 0) := by
  have here := found.getElem?_start
  refine ⟨proper, ?_, ?_, ?_⟩
  · rw [eq_replicate_iff]
    constructor
    · have bound := stops.trans found.inside
      simp only [RunRange.window, length_drop, length_take]
      omega
    · intro level member
      obtain ⟨j, held⟩ := mem_iff_getElem?.mp member
      simp only [RunRange.window, getElem?_drop, getElem?_take] at held
      split at held
      · next before =>
          rw [found.same _ (Nat.le_add_right _ j) (before.trans_le stops), here] at held
          exact (Option.some.inj held).symm
      · cases held
  · intro other member
    obtain ⟨i, held⟩ := mem_iff_getElem?.mp member
    rw [getElem?_take] at held
    split at held
    · next before =>
        have positive : stretch.start ≠ 0 := Nat.ne_zero_of_lt before
        have short : stretch.start - 1 < levels.length :=
          (Nat.sub_le _ 1).trans_lt (found.nonempty.trans_le found.inside)
        have last := getElem?_eq_getElem short
        have low := descending.le_of_getElem? (Nat.sub_le _ 1) last here
        have high := descending.le_of_getElem? (Nat.le_sub_one_of_lt before) held last
        apply (lt_of_le_of_ne low ?_).trans_le high
        intro same
        apply found.opens positive
        rw [last, here, same]
    · cases held
  · intro other member
    obtain ⟨j, held⟩ := mem_iff_getElem?.mp member
    rw [getElem?_drop] at held
    exact descending.le_of_getElem? (proper.trans (Nat.le_add_right _ j)) here held

/-- Whichever branch picks it, a range is a step of between two runs and a full
level; a stack below the ceiling only gives up full levels. -/
theorem pickMerge_isStep {fanout maxRuns : Nat} (descending : Descending levels)
    (picked : pickMerge levels fanout maxRuns = some range) :
    ∃ count level, IsStep levels range count level ∧ 2 ≤ count ∧ count ≤ max fanout 2 ∧
      (levels.length < maxRuns → count = max fanout 2) := by
  unfold pickMerge at picked
  dsimp only at picked
  cases full : lowestStretch levels (max fanout 2) with
  | some stretch =>
    rw [full] at picked
    cases picked
    obtain ⟨found, long, -⟩ := lowestStretch_eq_some full
    have step := found.isStep descending (Nat.le_add_right _ (max fanout 2))
      (Nat.add_le_of_le_sub' found.nonempty.le long)
    rw [Nat.add_sub_cancel_left] at step
    exact ⟨max fanout 2, _, step, le_max_right _ _, le_rfl, fun _ => rfl⟩
  | none =>
    rw [full] at picked
    dsimp only at picked
    split at picked
    · next deep =>
        obtain ⟨found, long, -⟩ := lowestStretch_eq_some picked
        have short := lowestStretch_eq_none full found
        exact ⟨range.len, _, found.isStep descending found.nonempty.le le_rfl, long, short.le,
          fun below => absurd deep (not_le.mpr below)⟩
    · cases picked

/-- A longest stretch of levels in order holds every run of its level. -/
theorem IsStretch.count_le (found : IsStretch levels stretch) (descending : Descending levels) :
    levels.count (levels.getD stretch.start 0) ≤ stretch.len := by
  have here := found.getElem?_start
  have step := found.isStep descending found.nonempty.le le_rfl
  have older : (levels.take stretch.start).count (levels.getD stretch.start 0) = 0 := by
    rw [count_eq_zero]
    intro member
    exact absurd (step.below _ member) (lt_irrefl _)
  have newer : (levels.drop stretch.stop).count (levels.getD stretch.start 0) = 0 := by
    rw [count_eq_zero]
    intro member
    obtain ⟨j, held⟩ := mem_iff_getElem?.mp member
    rw [getElem?_drop] at held
    have short : stretch.stop < levels.length := by
      have bound := (List.getElem?_eq_some_iff.mp held).1
      omega
    -- the run after the stretch lies between two of the same level
    have next := getElem?_eq_getElem short
    have low := descending.le_of_getElem? (Nat.le_add_right _ j) next held
    have high := descending.le_of_getElem? found.nonempty.le here next
    apply found.closes
    rw [next, here, le_antisymm high low]
  have split := RunRange.take_window_drop found.nonempty.le levels
  rw [congrArg (List.count (levels.getD stretch.start 0)) split, count_append,
    count_append, older, newer]
  change 0 + (RunRange.window ⟨stretch.start, stretch.stop⟩ levels).count _ + 0 ≤ _
  rw [step.window, count_replicate_self, Nat.zero_add, Nat.add_zero]
  exact le_rfl

/-- Every level of the stack has a longest stretch. -/
theorem exists_isStretch (member : level ∈ levels) :
    ∃ stretch, IsStretch levels stretch ∧ levels.getD stretch.start 0 = level := by
  have occurs : ∃ i, levels[i]? = some level := mem_iff_getElem?.mp member
  have first := Nat.find_spec occurs
  have earlier : ∀ i < Nat.find occurs, levels[i]? ≠ some level := fun i => Nat.find_min occurs
  generalize Nat.find occurs = start at first earlier
  have inside := (List.getElem?_eq_some_iff.mp first).1
  refine ⟨⟨start, stretchEnd levels start⟩, isStretch_stretchEnd inside ?_, ?_⟩
  · intro positive
    rw [first]
    exact earlier (start - 1) (Nat.sub_one_lt positive)
  · rw [getD_eq_getElem?_getD, first, Option.getD_some]

/-- When nothing is picked, no level has filled up. -/
theorem count_lt_of_pickMerge_eq_none {fanout maxRuns : Nat} (descending : Descending levels)
    (settled : pickMerge levels fanout maxRuns = none) (level : Nat) :
    levels.count level < max fanout 2 := by
  by_cases member : level ∈ levels
  · have missing : lowestStretch levels (max fanout 2) = none := by
      unfold pickMerge at settled
      dsimp only at settled
      split at settled
      · cases settled
      · next missing => exact missing
    obtain ⟨stretch, found, rfl⟩ := exists_isStretch member
    exact (found.count_le descending).trans_lt (lowestStretch_eq_none missing found)
  · rw [count_eq_zero.mpr member]
    exact Nat.zero_lt_two.trans_le (le_max_right fanout 2)

end Blaze
