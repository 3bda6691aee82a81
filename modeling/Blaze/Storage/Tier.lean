import Mathlib.Data.List.TakeDrop

/-!
# The tiering policy

Which neighbouring runs of a stack to merge next, given their levels, oldest
first.
-/

namespace Blaze

/-- A half-open range of positions in a stack. -/
structure RunRange where
  start : Nat
  stop : Nat
  deriving DecidableEq, Repr

namespace RunRange

def len (range : RunRange) : Nat :=
  range.stop - range.start

end RunRange

/-- Where the stretch of equal levels that begins at `start` ends. -/
def stretchEnd (levels : List Nat) (start : Nat) : Nat :=
  start + ((levels.drop start).takeWhile fun level => levels[start]? == some level).length

/-- The stretches from `start` on, keeping the best one seen.  Each one is at
least one run long, so as many rounds as there are runs suffice. -/
def lowestStretchLoop (levels : List Nat) (min : Nat) :
    Nat → Nat → Option RunRange → Option RunRange
  | 0, _, best => best
  | rounds + 1, start, best =>
      if start < levels.length then
        let stop := stretchEnd levels start
        -- strictly lower, so among equal levels the oldest stretch wins
        let improves := best.all fun held =>
          levels.getD start 0 < levels.getD held.start 0
        lowestStretchLoop levels min rounds stop
          (if min ≤ stop - start ∧ improves then some ⟨start, stop⟩ else best)
      else
        best

/-- The oldest stretch of at least `min` consecutive runs sharing a level, taking
the lowest such level. -/
def lowestStretch (levels : List Nat) (min : Nat) : Option RunRange :=
  lowestStretchLoop levels min levels.length 0 none

/-- Which runs to merge next: a level that has filled up, or the lowest stretch
there is once the stack is too deep. -/
def pickMerge (levels : List Nat) (fanout maxRuns : Nat) : Option RunRange :=
  let fanout := max fanout 2
  match lowestStretch levels fanout with
  | some stretch => some ⟨stretch.start, stretch.start + fanout⟩
  | none => if maxRuns ≤ levels.length then lowestStretch levels 2 else none

/-- A range of at least `min` positions inside a stack of the given length. -/
def RunRange.Within (range : RunRange) (min length : Nat) : Prop :=
  range.start + min ≤ range.stop ∧ range.stop ≤ length

theorem stretchEnd_le {levels : List Nat} {start : Nat} (inside : start < levels.length) :
    stretchEnd levels start ≤ levels.length := by
  have short := (List.takeWhile_sublist (l := levels.drop start)
    (fun level => levels[start]? == some level)).length_le
  rw [List.length_drop] at short
  unfold stretchEnd
  omega

theorem lowestStretchLoop_within (levels : List Nat) (min rounds start : Nat)
    (best : Option RunRange) (bestWithin : ∀ range ∈ best, range.Within min levels.length) :
    ∀ range ∈ lowestStretchLoop levels min rounds start best, range.Within min levels.length := by
  induction rounds generalizing start best with
  | zero => exact bestWithin
  | succ rounds ih =>
    rw [lowestStretchLoop]
    split
    · next inside =>
        apply ih
        split
        · next long =>
            rintro range ⟨rfl⟩
            have bound := stretchEnd_le inside
            have grows : start ≤ stretchEnd levels start := Nat.le_add_right _ _
            exact ⟨by dsimp only; omega, bound⟩
        · exact bestWithin
    · exact bestWithin

theorem lowestStretch_within {levels : List Nat} {min : Nat} {range : RunRange}
    (found : lowestStretch levels min = some range) : range.Within min levels.length :=
  lowestStretchLoop_within levels min levels.length 0 none (by simp) range found

/-- Every range picked covers at least two runs of the stack. -/
theorem pickMerge_within {levels : List Nat} {fanout maxRuns : Nat} {range : RunRange}
    (picked : pickMerge levels fanout maxRuns = some range) : range.Within 2 levels.length := by
  unfold pickMerge at picked
  dsimp only at picked
  split at picked
  · next stretch found =>
      cases picked
      have within := lowestStretch_within found
      unfold RunRange.Within at within ⊢
      dsimp only
      omega
  · split at picked
    · exact lowestStretch_within picked
    · cases picked

example : pickMerge [0, 0, 0, 0, 0] 4 100 = some ⟨0, 4⟩ := by decide
example : pickMerge [1, 1, 1, 1, 0, 0, 0, 0] 4 100 = some ⟨4, 8⟩ := by decide

end Blaze
