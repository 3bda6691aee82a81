import Mathlib.Algebra.Group.Action.Defs
import Mathlib.Algebra.Order.BigOperators.Group.Finset
import Mathlib.Data.Nat.Digits.Lemmas

/-!
# Tokens of a positional system

Tokens of level `l` stand for `base ^ l`.  When fewer than `base` tokens share a
level, the number of tokens of each level is the digit of what they stand for.
-/

namespace Positional

open List

variable {levels : List Nat}

/-- What the tokens stand for together. -/
def weight (base : Nat) (levels : List Nat) : Nat :=
  levels.foldr (fun level rest => base ^ level + rest) 0

variable {base : Nat}

@[simp]
theorem weight_nil : weight base [] = 0 :=
  rfl

@[simp]
theorem weight_cons (level : Nat) (levels : List Nat) :
    weight base (level :: levels) = base ^ level + weight base levels :=
  rfl

theorem weight_append (older newer : List Nat) :
    weight base (older ++ newer) = weight base older + weight base newer := by
  induction older with
  | nil => simp
  | cons level older ih =>
    rw [cons_append, weight_cons, weight_cons, ih, Nat.add_assoc]

theorem weight_replicate (count level : Nat) :
    weight base (List.replicate count level) = count * base ^ level := by
  induction count with
  | zero => simp
  | succ count ih =>
    rw [replicate_succ, weight_cons, ih, Nat.succ_mul, Nat.add_comm]

/-- The weight, level by level. -/
theorem weight_eq_sum {bound : Nat} (below : ∀ level ∈ levels, level < bound) :
    weight base levels = ∑ level ∈ Finset.range bound, levels.count level * base ^ level := by
  induction levels with
  | nil => simp
  | cons level levels ih =>
    obtain ⟨here, rest⟩ := forall_mem_cons.mp below
    have one : ∑ other ∈ Finset.range bound,
        (if level == other then 1 else 0) * base ^ other = base ^ level := by
      simp [here]
    simp only [count_cons, Nat.add_mul, Finset.sum_add_distrib]
    rw [weight_cons, ih rest, one, Nat.add_comm]

/-- Digits given by a function of their position. -/
theorem ofDigits_map_range (digit : Nat → Nat) (bound : Nat) :
    Nat.ofDigits base ((List.range bound).map digit) =
      ∑ level ∈ Finset.range bound, digit level * base ^ level := by
  induction bound with
  | zero => simp
  | succ bound ih =>
    rw [range_succ, map_append, Nat.ofDigits_append, ih, Finset.sum_range_succ]
    simp [Nat.mul_comm]

/-- With fewer than `base` tokens a level, the counts are the digits of the weight. -/
theorem digits_weight {top : Nat} (large : 1 < base) (small : ∀ level, levels.count level < base)
    (attained : top ∈ levels) (highest : ∀ level ∈ levels, level ≤ top) :
    Nat.digits base (weight base levels) = (List.range (top + 1)).map fun level =>
      levels.count level := by
  rw [weight_eq_sum fun level member => Nat.lt_succ_of_le (highest level member),
    ← ofDigits_map_range]
  apply Nat.digits_ofDigits base large
  · intro digit member
    obtain ⟨level, -, rfl⟩ := mem_map.mp member
    exact small level
  · intro nonempty
    simp only [range_succ, map_append, map_singleton, getLast_append_singleton]
    exact Nat.ne_of_gt (count_pos_iff.mpr attained)

theorem exists_highest (nonempty : levels ≠ []) :
    ∃ top ∈ levels, ∀ level ∈ levels, level ≤ top := by
  obtain ⟨first, member⟩ := exists_mem_of_ne_nil levels nonempty
  obtain ⟨top, attained, highest⟩ := levels.toFinset.exists_max_image id
    ⟨first, mem_toFinset.mpr member⟩
  exact ⟨top, mem_toFinset.mp attained,
    fun level member => highest level (mem_toFinset.mpr member)⟩

theorem count_eq_digit (large : 1 < base) (small : ∀ level, levels.count level < base)
    (level : Nat) :
    levels.count level = (Nat.digits base (weight base levels)).getD level 0 := by
  by_cases empty : levels = []
  · simp [empty]
  · obtain ⟨top, attained, highest⟩ := exists_highest empty
    rw [digits_weight large small attained highest, getD_eq_getElem?_getD, getElem?_map]
    by_cases inside : level < top + 1
    · simp [getElem?_range inside]
    · rw [getElem?_eq_none (by simpa using inside)]
      apply count_eq_zero.mpr
      intro member
      exact inside (Nat.lt_succ_of_le (highest level member))

/-- There are at most `base - 1` tokens for each digit. -/
theorem length_le_digits (large : 1 < base) (small : ∀ level, levels.count level < base) :
    levels.length ≤ (base - 1) * (Nat.digits base (weight base levels)).length := by
  by_cases empty : levels = []
  · simp [empty]
  · obtain ⟨top, attained, highest⟩ := exists_highest empty
    have unit : weight 1 levels = levels.length := by
      clear small attained highest empty
      induction levels with
      | nil => rfl
      | cons level levels ih =>
        rw [weight_cons, ih, Nat.one_pow, length_cons, Nat.add_comm]
    rw [digits_weight large small attained highest, length_map, length_range, ← unit,
      weight_eq_sum fun level member => Nat.lt_succ_of_le (highest level member)]
    have bounded := Finset.sum_le_card_nsmul (Finset.range (top + 1))
      (fun level => levels.count level * 1 ^ level) (base - 1) (by
        intro level _
        rw [Nat.one_pow, Nat.mul_one]
        exact Nat.le_sub_one_of_lt (small level))
    rwa [Finset.card_range, smul_eq_mul, Nat.mul_comm] at bounded

end Positional
