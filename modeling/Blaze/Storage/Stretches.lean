import Mathlib.Data.List.TakeWhile
import Blaze.Storage.Tier

/-!
# What the tiering policy picks

The scan of `lowest_stretch` visits the longest stretches of equal levels one after
the other, so what it returns is one of them, at the lowest level of those that are
long enough.
-/

namespace Blaze

/-- A longest stretch of neighbours that share a level. -/
structure IsStretch (levels : List Nat) (range : RunRange) : Prop where
  nonempty : range.start < range.stop
  inside : range.stop ≤ levels.length
  same : ∀ i, range.start ≤ i → i < range.stop → levels[i]? = levels[range.start]?
  opens : range.start ≠ 0 → levels[range.start - 1]? ≠ levels[range.start]?
  closes : levels[range.stop]? ≠ levels[range.start]?

/-- Two longest stretches that meet are the same one. -/
theorem IsStretch.eq_of_meets {levels : List Nat} {first second : RunRange}
    (one : IsStretch levels first) (other : IsStretch levels second)
    (low : first.start ≤ second.start) (high : second.start < first.stop) : first = second := by
  obtain ⟨start, stop⟩ := first
  obtain ⟨start', stop'⟩ := second
  dsimp only at low high
  have starts : start = start' := by
    by_contra apart
    have later : start ≤ start' - 1 := Nat.le_sub_one_of_lt (lt_of_le_of_ne low apart)
    have inside : start' - 1 < stop := (Nat.sub_le start' 1).trans_lt high
    apply other.opens (Nat.ne_zero_of_lt (lt_of_le_of_ne low apart))
    exact (one.same (start' - 1) later inside).trans (one.same start' low high).symm
  subst starts
  have stops : stop = stop' := by
    rcases Nat.lt_trichotomy stop stop' with short | equal | long
    · exact absurd (other.same stop (Nat.le_of_lt one.nonempty) short) one.closes
    · exact equal
    · exact absurd (one.same stop' (Nat.le_of_lt other.nonempty) long) other.closes
  rw [stops]

/-! ## One step of the scan -/

section stretchEnd

variable {levels : List Nat} {start : Nat}

theorem lt_stretchEnd (inside : start < levels.length) : start < stretchEnd levels start := by
  unfold stretchEnd
  rw [List.drop_eq_getElem_cons inside, List.takeWhile_cons_of_pos (by simp [inside])]
  simp

/-- The levels from `start` on, split where the stretch ends. -/
theorem drop_eq_stretch (levels : List Nat) (start : Nat) :
    levels.drop start =
      (levels.drop start).takeWhile (fun level => levels[start]? == some level) ++
        levels.drop (stretchEnd levels start) := by
  have split := List.takeWhile_append_dropWhile
    (p := fun level => levels[start]? == some level) (l := levels.drop start)
  have rest := congrArg (List.drop (((levels.drop start).takeWhile
    fun level => levels[start]? == some level)).length) split
  rw [List.drop_left, List.drop_drop] at rest
  rw [stretchEnd, ← rest, split]

theorem getElem?_of_lt_stretchEnd {i : Nat} (low : start ≤ i)
    (high : i < stretchEnd levels start) : levels[i]? = levels[start]? := by
  obtain ⟨j, rfl⟩ := Nat.exists_eq_add_of_le low
  have short := Nat.lt_of_add_lt_add_left high
  have holds := List.mem_takeWhile_imp (List.getElem_mem short)
  rw [← List.getElem?_drop, drop_eq_stretch, List.getElem?_append_left short,
    List.getElem?_eq_getElem short]
  simpa using (beq_iff_eq.mp holds).symm

theorem getElem?_stretchEnd_ne (inside : start < levels.length) :
    levels[stretchEnd levels start]? ≠ levels[start]? := by
  intro same
  have stopped := List.head?_dropWhile_not
    (fun level => levels[start]? == some level) (levels.drop start)
  have rest : (levels.drop start).dropWhile (fun level => levels[start]? == some level) =
      levels.drop (stretchEnd levels start) := by
    have split := List.takeWhile_append_dropWhile
      (p := fun level => levels[start]? == some level) (l := levels.drop start)
    exact List.append_cancel_left (split.trans (drop_eq_stretch levels start))
  rw [rest, List.head?_drop, same, List.getElem?_eq_getElem inside] at stopped
  simp at stopped

/-- The scan steps from one longest stretch to the next. -/
theorem isStretch_stretchEnd (inside : start < levels.length)
    (opens : start ≠ 0 → levels[start - 1]? ≠ levels[start]?) :
    IsStretch levels ⟨start, stretchEnd levels start⟩ where
  nonempty := lt_stretchEnd inside
  inside := stretchEnd_le inside
  same _ low high := getElem?_of_lt_stretchEnd low high
  opens := opens
  closes := getElem?_stretchEnd_ne inside

end stretchEnd

/-! ## The whole scan -/

/-- The result of the scan is a longest stretch of at least `min` runs, and none that
long has a lower level. -/
theorem lowestStretchLoop_spec (levels : List Nat) (min rounds start : Nat)
    (best : Option RunRange) (enough : levels.length ≤ start + rounds)
    (opens : start ≠ 0 → levels[start - 1]? ≠ levels[start]?)
    (held : ∀ range ∈ best, IsStretch levels range ∧ min ≤ range.len)
    (least : ∀ range, IsStretch levels range → min ≤ range.len → range.start < start →
      ∃ lowest ∈ best, levels.getD lowest.start 0 ≤ levels.getD range.start 0) :
    (∀ range ∈ lowestStretchLoop levels min rounds start best,
      IsStretch levels range ∧ min ≤ range.len) ∧
    ∀ range, IsStretch levels range → min ≤ range.len →
      ∃ lowest ∈ lowestStretchLoop levels min rounds start best,
        levels.getD lowest.start 0 ≤ levels.getD range.start 0 := by
  induction rounds generalizing start best with
  | zero =>
    refine ⟨held, fun range stretch long => least range stretch long ?_⟩
    have nonempty := stretch.nonempty
    have inside := stretch.inside
    omega
  | succ rounds ih =>
    rw [lowestStretchLoop]
    split
    · next inside =>
        have here := isStretch_stretchEnd inside opens
        have grows := lt_stretchEnd inside
        apply ih
        · omega
        · intro _ same
          apply getElem?_stretchEnd_ne inside
          rw [← same]
          exact getElem?_of_lt_stretchEnd (by omega) (by omega)
        · split
          · next better =>
              rintro range ⟨rfl⟩
              exact ⟨here, better.1⟩
          · exact held
        · intro range stretch long before
          by_cases seen : range.start < start
          · obtain ⟨lowest, found, below⟩ := least range stretch long seen
            split
            · next better =>
                rw [Option.mem_def] at found
                have improves := better.2
                rw [found, Option.all_some, decide_eq_true_iff] at improves
                exact ⟨_, rfl, improves.le.trans below⟩
            · exact ⟨lowest, found, below⟩
          · -- the only stretch that starts here is the one the scan stepped over
            cases here.eq_of_meets stretch (not_lt.mp seen) before
            split
            · exact ⟨_, rfl, le_rfl⟩
            · next kept =>
                cases best with
                | none => exact absurd ⟨long, rfl⟩ kept
                | some lowest =>
                  refine ⟨lowest, rfl, not_lt.mp fun lower => kept ⟨long, ?_⟩⟩
                  rw [Option.all_some, decide_eq_true_iff]
                  exact lower
    · next outside =>
        refine ⟨held, fun range stretch long => least range stretch long ?_⟩
        have nonempty := stretch.nonempty
        have inside := stretch.inside
        omega

/-- A stretch the scan returns is a longest one, and none that long is lower. -/
theorem lowestStretch_eq_some {levels : List Nat} {min : Nat} {lowest : RunRange}
    (found : lowestStretch levels min = some lowest) :
    IsStretch levels lowest ∧ min ≤ lowest.len ∧
      ∀ range, IsStretch levels range → min ≤ range.len →
        levels.getD lowest.start 0 ≤ levels.getD range.start 0 := by
  obtain ⟨held, least⟩ := lowestStretchLoop_spec levels min levels.length 0 none (by simp)
    (fun start => absurd rfl start) (by simp) (fun range _ _ before => absurd before (by simp))
  obtain ⟨stretch, long⟩ := held lowest found
  refine ⟨stretch, long, fun range other enough => ?_⟩
  obtain ⟨picked, same, below⟩ := least range other enough
  cases Option.some.inj (found.symm.trans same)
  exact below

/-- The scan returns nothing only when every stretch is too short. -/
theorem lowestStretch_eq_none {levels : List Nat} {min : Nat}
    (missing : lowestStretch levels min = none) {range : RunRange}
    (stretch : IsStretch levels range) : range.len < min := by
  obtain ⟨_, least⟩ := lowestStretchLoop_spec levels min levels.length 0 none (by simp)
    (fun start => absurd rfl start) (by simp) (fun range _ _ before => absurd before (by simp))
  by_contra long
  obtain ⟨picked, same, _⟩ := least range stretch (not_lt.mp long)
  cases missing.symm.trans same

end Blaze
