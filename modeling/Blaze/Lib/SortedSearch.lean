import Mathlib.Data.List.TakeWhile
import Mathlib.Order.Lattice

/-!
# Search in ascending sequences

Bisection over a sequence that is read one index at a time, where a read may fail.
The searches are stated for any reader; their specifications compare them with the
list that the reader gives.
-/

namespace Search

open List

variable {point i lo hi left : Nat}

universe u

/-! ## Partition points -/

/-- How many items come before the first one that fails the test. -/
def partitionPoint {α : Type u} (q : α → Bool) (items : List α) : Nat :=
  (items.takeWhile q).length

section PartitionPoint

variable {α : Type u} {q : α → Bool} {items : List α}

theorem partitionPoint_le (q : α → Bool) (items : List α) : partitionPoint q items ≤ items.length :=
  (takeWhile_sublist q).length_le

theorem partitionPoint_cons_of_pos {first : α} (holds : q first = true) :
    partitionPoint q (first :: items) = partitionPoint q items + 1 := by
  rw [partitionPoint, takeWhile_cons_of_pos holds]
  rfl

theorem partitionPoint_cons_of_neg {first : α} (fails : ¬ q first = true) :
    partitionPoint q (first :: items) = 0 := by
  rw [partitionPoint, takeWhile_cons_of_neg fails]
  rfl

theorem partitionPoint_eq (tells : ∀ i item, items[i]? = some item → (q item = true ↔ i < point))
    (inside : point ≤ items.length) : partitionPoint q items = point := by
  induction items generalizing point with
  | nil => exact (Nat.le_zero.mp inside).symm
  | cons first items ih =>
    have head := tells 0 first rfl
    cases point with
    | zero => exact partitionPoint_cons_of_neg fun holds => Nat.lt_irrefl 0 (head.mp holds)
    | succ point =>
      rw [partitionPoint_cons_of_pos (head.mpr (Nat.succ_pos point))]
      congr 1
      apply ih
      · intro i item at_i
        exact (tells (i + 1) item at_i).trans Nat.succ_lt_succ_iff
      · exact Nat.le_of_succ_le_succ inside

/-- When the test fails for good, it holds just before the partition point. -/
theorem lt_partitionPoint_iff (falls : items.Pairwise fun first second => q second → q first)
    {item : α} (at_i : items[i]? = some item) : i < partitionPoint q items ↔ q item = true := by
  induction items generalizing i with
  | nil => cases at_i
  | cons first items ih =>
    obtain ⟨before, rest⟩ := pairwise_cons.mp falls
    by_cases holds : q first = true
    · rw [partitionPoint_cons_of_pos holds]
      cases i with
      | zero =>
        cases at_i
        simp [holds]
      | succ i => exact Nat.succ_lt_succ_iff.trans (ih rest at_i)
    · rw [partitionPoint_cons_of_neg holds]
      refine ⟨fun below => absurd below (Nat.not_lt_zero i), fun later => ?_⟩
      cases i with
      | zero =>
        cases at_i
        exact absurd later holds
      | succ i => exact absurd (before item (mem_of_getElem? at_i) later) holds

end PartitionPoint

/-! ## Bisection -/

section Bisection

variable {ε : Type}

/-- The first index in a range at which the test fails. -/
def lowerBound (below : Nat → Except ε Bool) (lo hi : Nat) : Except ε Nat :=
  if lo < hi then do
    let mid := lo + (hi - lo) / 2
    if ← below mid then lowerBound below (mid + 1) hi else lowerBound below lo mid
  else
    .ok lo
termination_by hi - lo

theorem lowerBound_eq {below : Nat → Except ε Bool}
    (tells : ∀ i, i < hi → below i = .ok (decide (i < point))) (least : lo ≤ point)
    (most : point ≤ hi) : lowerBound below lo hi = .ok point := by
  fun_induction lowerBound below lo hi with
  | case1 lo hi active mid inductionAbove inductionBelow =>
    have midInside : mid < hi := by omega
    rw [tells mid midInside]
    by_cases before : mid < point
    · have found := inductionAbove tells before most
      simpa [before, Bind.bind, Except.bind] using found
    · have found := inductionBelow (fun i inside => tells i (inside.trans midInside)) least
        (not_lt.mp before)
      simpa [before, Bind.bind, Except.bind] using found
  | case2 lo hi done =>
    congr 1
    omega

/-- A search whose reads succeed ends, whatever they give. -/
theorem exists_lowerBound {below : Nat → Except ε Bool}
    (reads : ∀ i, i < hi → ∃ answer, below i = .ok answer) (lo : Nat) :
    ∃ point, lowerBound below lo hi = .ok point := by
  fun_induction lowerBound below lo hi with
  | case1 lo hi active mid inductionAbove inductionBelow =>
    have midInside : mid < hi := by omega
    obtain ⟨answer, read⟩ := reads mid midInside
    rw [read]
    cases answer with
    | true => exact inductionAbove reads
    | false => exact inductionBelow fun i inside => reads i (inside.trans midInside)
  | case2 lo hi done => exact ⟨lo, rfl⟩

/-- An index in a range at which the comparison gives equality. -/
def bisect (compareAt : Nat → Except ε Ordering) (lo hi : Nat) : Except ε (Option Nat) :=
  if lo < hi then do
    let mid := lo + (hi - lo) / 2
    match ← compareAt mid with
    | .eq => .ok (some mid)
    | .lt => bisect compareAt (mid + 1) hi
    | .gt => bisect compareAt lo mid
  else
    .ok none
termination_by hi - lo

/-- A bisection whose reads succeed ends, whatever they give, and stays in its range. -/
theorem exists_bisect {compareAt : Nat → Except ε Ordering}
    (reads : ∀ i, i < hi → ∃ answer, compareAt i = .ok answer) (lo : Nat) :
    ∃ found, bisect compareAt lo hi = .ok found ∧ ∀ i ∈ found, i < hi := by
  fun_induction bisect compareAt lo hi with
  | case1 lo hi active mid inductionAbove inductionBelow =>
    have midInside : mid < hi := by omega
    obtain ⟨answer, read⟩ := reads mid midInside
    rw [read]
    cases answer with
    | eq => exact ⟨some mid, rfl, by simpa using midInside⟩
    | lt => exact inductionAbove reads
    | gt =>
      obtain ⟨found, returns, inside⟩ :=
        inductionBelow fun i inside => reads i (inside.trans midInside)
      exact ⟨found, returns, fun i member => (inside i member).trans midInside⟩
  | case2 lo hi done => exact ⟨none, rfl, by simp⟩

variable {κ : Type} [LinearOrder κ] {keys : List κ} {key : κ}
  {compareAt : Nat → Except ε Ordering} {lo hi : Nat}

/-- Bisection finds the place of a key that is in the range. -/
theorem bisect_found (ascending : keys.Pairwise (· < ·))
    (reads : ∀ i other, keys[i]? = some other → compareAt i = .ok (compare other key))
    (inside : hi ≤ keys.length) {j : Nat} (at_j : keys[j]? = some key) (least : lo ≤ j)
    (most : j < hi) : bisect compareAt lo hi = .ok (some j) := by
  have bound : j < keys.length := most.trans_le inside
  have same : keys[j] = key := by
    rw [getElem?_eq_getElem bound] at at_j
    exact Option.some.inj at_j
  clear at_j
  fun_induction bisect compareAt lo hi with
  | case1 lo hi active mid inductionAbove inductionBelow =>
    have midInside : mid < keys.length := by omega
    rw [reads mid _ (getElem?_eq_getElem midInside), ← same]
    rcases Nat.lt_trichotomy mid j with before | rfl | behind
    · have less := pairwise_iff_getElem.mp ascending mid j midInside bound before
      have found := inductionAbove inside before most
      simpa [compare_lt_iff_lt.mpr less, Bind.bind, Except.bind] using found
    · simp [Bind.bind, Except.bind]
    · have less := pairwise_iff_getElem.mp ascending j mid bound midInside behind
      have found := inductionBelow (by omega) least behind
      simpa [compare_gt_iff_gt.mpr less, Bind.bind, Except.bind] using found
  | case2 lo hi done => omega

/-- Bisection sees a reader in its range only. -/
theorem bisect_congr {ε : Type} {compareAt other : Nat → Except ε Ordering}
    (same : ∀ i, i < hi → compareAt i = other i) (lo : Nat) :
    bisect compareAt lo hi = bisect other lo hi := by
  fun_induction bisect compareAt lo hi with
  | case1 lo hi active mid inductionAbove inductionBelow =>
    have midInside : mid < hi := by omega
    rw [bisect.eq_def other, if_pos active]
    change _ = (do
      match ← other mid with
      | .eq => .ok (some mid)
      | .lt => bisect other (mid + 1) hi
      | .gt => bisect other lo mid)
    rw [← same mid midInside]
    cases compareAt mid with
    | error fault => rfl
    | ok answer =>
      cases answer with
      | eq => rfl
      | lt => exact inductionAbove same
      | gt => exact inductionBelow fun i inside => same i (inside.trans midInside)
  | case2 lo hi done => rw [bisect.eq_def, if_neg done]

/-- Bisection finds nothing for a key that is nowhere. -/
theorem bisect_absent
    (reads : ∀ i other, keys[i]? = some other → compareAt i = .ok (compare other key))
    (inside : hi ≤ keys.length) (absent : key ∉ keys) : bisect compareAt lo hi = .ok none := by
  fun_induction bisect compareAt lo hi with
  | case1 lo hi active mid inductionAbove inductionBelow =>
    have midInside : mid < keys.length := by omega
    have different : keys[mid] ≠ key := fun same =>
      absent (same ▸ getElem_mem midInside)
    rw [reads mid _ (getElem?_eq_getElem midInside)]
    rcases lt_or_gt_of_ne different with less | more
    · simpa [compare_lt_iff_lt.mpr less, Bind.bind, Except.bind] using inductionAbove inside
    · have found := inductionBelow (by omega)
      simpa [compare_gt_iff_gt.mpr more, Bind.bind, Except.bind] using found
  | case2 lo hi done => rfl

end Bisection

/-! ## Runs of equal keys -/

section Runs

variable {ε κ β : Type}

/-- The values of consecutive items with a key, over a number of items at most. -/
def takeRun [DecidableEq κ] (keyAt : Nat → Except ε κ) (valueAt : Nat → Except ε β) (key : κ) :
    Nat → Nat → List β → Except ε (List β)
  | 0, _, out => .ok out
  | left + 1, i, out => do
      if (← keyAt i) = key then
        takeRun keyAt valueAt key left (i + 1) (out ++ [← valueAt i])
      else
        .ok out

variable {keyAt : Nat → Except ε κ} {valueAt : Nat → Except ε β} {items : List (κ × β)} {key : κ}

theorem exists_takeRun [DecidableEq κ] (reads : ∀ j, i ≤ j → j < i + left →
      (∃ other, keyAt j = .ok other) ∧ ∃ value, valueAt j = .ok value)
    (out : List β) : ∃ values, takeRun keyAt valueAt key left i out = .ok values := by
  induction left generalizing i out with
  | zero => exact ⟨out, rfl⟩
  | succ left ih =>
    obtain ⟨⟨other, readKey⟩, ⟨value, readValue⟩⟩ := reads i le_rfl (by omega)
    rw [takeRun, readKey, readValue]
    by_cases same : other = key
    · obtain ⟨values, rest⟩ := ih (i := i + 1)
        (fun j least most => reads j (by omega) (by omega)) (out ++ [value])
      exact ⟨values, (if_pos same).trans rest⟩
    · exact ⟨out, if_neg same⟩

theorem takeRun_eq [DecidableEq κ]
    (reads : ∀ i item, items[i]? = some item → keyAt i = .ok item.1 ∧ valueAt i = .ok item.2)
    (inside : i + left ≤ items.length) (out : List β) :
    takeRun keyAt valueAt key left i out =
      .ok (out ++ (((items.drop i).takeWhile fun item => item.1 = key).take left).map
        Prod.snd) := by
  induction left generalizing i out with
  | zero => simp [takeRun]
  | succ left ih =>
    have bound : i < items.length := by omega
    obtain ⟨readKey, readValue⟩ := reads i _ (getElem?_eq_getElem bound)
    rw [takeRun, readKey, readValue, drop_eq_getElem_cons bound]
    by_cases same : items[i].1 = key
    · have rest := ih (i := i + 1) (by omega) (out ++ [items[i].2])
      rw [takeWhile_cons_of_pos (by simpa using same), take_succ_cons, map_cons,
        append_cons, ← rest]
      exact if_pos same
    · rw [takeWhile_cons_of_neg (by simpa using same), take_nil, map_nil,
        append_nil]
      exact if_neg same

/-- In ascending items, the ones with a key are together behind the smaller ones. -/
theorem filter_eq_takeWhile [LinearOrder κ]
    (ascending : items.Pairwise fun first second => first.1 ≤ second.1) :
    (items.filter fun item => item.1 = key) =
      (items.drop (partitionPoint (fun item => item.1 < key) items)).takeWhile
        fun item => item.1 = key := by
  induction items with
  | nil => rfl
  | cons first items ih =>
    obtain ⟨above, rest⟩ := pairwise_cons.mp ascending
    rcases lt_trichotomy first.1 key with less | same | more
    · rw [filter_cons_of_neg (by simpa using less.ne), ih rest,
        partitionPoint_cons_of_pos (by simpa using less)]
      rfl
    · have start : partitionPoint (fun item : κ × β => item.1 < key) items = 0 := by
        apply partitionPoint_eq _ (Nat.zero_le _)
        intro i item at_i
        simpa [same] using above item (mem_of_getElem? at_i)
      rw [start, drop_zero] at ih
      rw [partitionPoint_cons_of_neg (by simpa using same.ge), drop_zero,
        filter_cons_of_pos (by simpa using same),
        takeWhile_cons_of_pos (by simpa using same), ih rest]
    · rw [partitionPoint_cons_of_neg (by simpa using more.le), drop_zero,
        takeWhile_cons_of_neg (by simpa using more.ne'), filter_eq_nil_iff]
      intro item member
      rcases mem_cons.mp member with rfl | later
      · simpa using more.ne'
      · simpa using (more.trans_le (above item later)).ne'

/-- The lower bound of a key in ascending items, in a range that contains it. -/
theorem lowerBound_of_ascending [LinearOrder κ]
    (reads : ∀ i item, items[i]? = some item → keyAt i = .ok item.1)
    (ascending : items.Pairwise fun first second => first.1 ≤ second.1)
    (least : lo ≤ partitionPoint (fun item => item.1 < key) items)
    (most : partitionPoint (fun item => item.1 < key) items ≤ hi) (inside : hi ≤ items.length) :
    lowerBound (fun i => do .ok (decide ((← keyAt i) < key))) lo hi =
      .ok (partitionPoint (fun item => item.1 < key) items) := by
  have falls : items.Pairwise fun first second =>
      decide (second.1 < key) → decide (first.1 < key) :=
    ascending.imp fun le less => by simpa using le.trans_lt (by simpa using less)
  apply lowerBound_eq _ least most
  intro i less
  have at_i := getElem?_eq_getElem (less.trans_le inside)
  have split := lt_partitionPoint_iff falls at_i
  rw [decide_eq_true_iff] at split
  rw [reads i _ at_i]
  exact congrArg Except.ok (decide_eq_decide.mpr split.symm)

/-- The run behind the lower bound has the values of the key. -/
theorem takeRun_of_ascending [LinearOrder κ]
    (reads : ∀ i item, items[i]? = some item → keyAt i = .ok item.1 ∧ valueAt i = .ok item.2)
    (ascending : items.Pairwise fun first second => first.1 ≤ second.1) (key : κ) (limit : Nat)
    (out : List β) :
    takeRun keyAt valueAt key
        (min (items.length - partitionPoint (fun item => item.1 < key) items) limit)
        (partitionPoint (fun item => item.1 < key) items) out =
      .ok (out ++ ((items.filter fun item => item.1 = key).map Prod.snd).take limit) := by
  have inside := partitionPoint_le (fun item => decide (item.1 < key)) items
  have few : ((items.drop (partitionPoint (fun item => item.1 < key) items)).takeWhile
      fun item => item.1 = key).length ≤ _ := (takeWhile_sublist _).length_le
  rw [takeRun_eq reads (by omega), ← filter_eq_takeWhile ascending]
  rw [← filter_eq_takeWhile ascending, length_drop] at few
  rw [← map_take, Nat.min_comm, ← take_take, take_of_length_le (i := _ - _) few]

end Runs

end Search
