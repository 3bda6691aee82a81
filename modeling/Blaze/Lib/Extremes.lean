import Mathlib.Order.Defs.Unbundled

/-!
# Extreme values of a keyed list

For each key of a list of entries, the value that stands in a relation to every other
value of the key: the least one for `≤`, the greatest one for `≥`.  The extremes of a
list that is put together from parts are the extremes of the extremes of its parts.
-/

namespace Blaze.Extremes

universe u v w

variable {κ : Type u} {ν : Type v} {r : ν → ν → Prop} {entries others : List (κ × ν)} {key : κ}
  {value other last : ν}

/-- The entry is there, and its value stands in the relation to every value of its
key. -/
def Extreme (r : ν → ν → Prop) (entries : List (κ × ν)) (key : κ) (value : ν) : Prop :=
  (key, value) ∈ entries ∧ ∀ other, (key, other) ∈ entries → r value other

/-- Extremes depend on what is in the list only. -/
theorem extreme_congr (same : ∀ entry, entry ∈ entries ↔ entry ∈ others) :
    Extreme r entries key value ↔ Extreme r others key value := by
  simp [Extreme, same]

theorem not_extreme_nil : ¬ Extreme r [] key value :=
  fun extreme => List.not_mem_nil extreme.1

/-- The extremes of a key agree. -/
theorem Extreme.unique [Std.Antisymm r] (first : Extreme r entries key value)
    (second : Extreme r entries key other) : value = other :=
  Std.Antisymm.antisymm value other (first.2 other second.1) (second.2 value first.1)

theorem Extreme.iff_eq [Std.Antisymm r] (extreme : Extreme r entries key value) :
    Extreme r entries key other ↔ value = other :=
  ⟨extreme.unique, fun same => same ▸ extreme⟩

/-- The values of a key in a list with one more entry of the key. -/
theorem mem_concat_iff :
    (key, other) ∈ entries ++ [(key, last)] ↔ (key, other) ∈ entries ∨ other = last := by
  simp

/-- A value that stands in the relation to a new one stays extreme. -/
theorem Extreme.concat (extreme : Extreme r entries key value) (related : r value last) :
    Extreme r (entries ++ [(key, last)]) key value := by
  refine ⟨List.mem_append_left _ extreme.1, fun other member => ?_⟩
  rcases mem_concat_iff.mp member with old | rfl
  · exact extreme.2 other old
  · exact related

/-- A new value is extreme if it stands in the relation to the old ones. -/
theorem extreme_concat_self (reflexive : r last last)
    (related : ∀ other, (key, other) ∈ entries → r last other) :
    Extreme r (entries ++ [(key, last)]) key last := by
  refine ⟨mem_concat_iff.mpr (Or.inr rfl), fun other member => ?_⟩
  rcases mem_concat_iff.mp member with old | rfl
  · exact related other old
  · exact reflexive

/-- An entry of another key does not matter. -/
theorem extreme_concat_of_ne {key' : κ} (other : key ≠ key') :
    Extreme r (entries ++ [(key', last)]) key value ↔ Extreme r entries key value := by
  simp [Extreme, other]

/-- A key that is there has an extreme value. -/
theorem exists_extreme [Std.Total r] [IsTrans ν r] (member : (key, value) ∈ entries) :
    ∃ extreme, Extreme r entries key extreme := by
  induction entries generalizing value with
  | nil => cases member
  | cons entry entries ih =>
    have reflexive : ∀ v, r v v := fun v => (Std.Total.total v v).elim id id
    by_cases later : ∃ other, (key, other) ∈ entries
    · obtain ⟨other, inside⟩ := later
      obtain ⟨extreme, there, best⟩ := ih inside
      by_cases here : entry.1 = key
      · rcases Std.Total.total (r := r) entry.2 extreme with first | second
        · refine ⟨entry.2, by simp [← here], fun v inList => ?_⟩
          rcases List.mem_cons.mp inList with rfl | rest
          · exact reflexive v
          · exact IsTrans.trans _ _ _ first (best v rest)
        · refine ⟨extreme, List.mem_cons_of_mem entry there, fun v inList => ?_⟩
          rcases List.mem_cons.mp inList with rfl | rest
          · exact second
          · exact best v rest
      · refine ⟨extreme, List.mem_cons_of_mem entry there, fun v inList => ?_⟩
        rcases List.mem_cons.mp inList with rfl | rest
        · exact absurd rfl here
        · exact best v rest
    · rcases List.mem_cons.mp member with rfl | rest
      · refine ⟨value, List.mem_cons_self, fun v inList => ?_⟩
        rcases List.mem_cons.mp inList with same | rest
        · rw [(Prod.mk.inj same).2]
          exact reflexive value
        · exact absurd ⟨v, rest⟩ later
      · exact absurd ⟨value, rest⟩ later

/-- The extremes of the extremes of the parts are those of the whole. -/
theorem extreme_flatMap_iff [Std.Total r] [IsTrans ν r] {α : Type w} {parts : List α}
    {whole extremes : α → List (κ × ν)} (each : ∀ part ∈ parts, ∀ key value,
      (key, value) ∈ extremes part ↔ Extreme r (whole part) key value) :
    Extreme r (parts.flatMap extremes) key value ↔ Extreme r (parts.flatMap whole) key value := by
  constructor
  · rintro ⟨there, best⟩
    obtain ⟨part, member, here⟩ := List.mem_flatMap.mp there
    refine ⟨List.mem_flatMap.mpr ⟨part, member, ((each part member _ _).mp here).1⟩, ?_⟩
    intro other inside
    obtain ⟨part', member', here'⟩ := List.mem_flatMap.mp inside
    obtain ⟨extreme, isExtreme⟩ := exists_extreme (r := r) here'
    have listed : (key, extreme) ∈ parts.flatMap extremes :=
      List.mem_flatMap.mpr ⟨part', member', (each part' member' _ _).mpr isExtreme⟩
    exact IsTrans.trans _ _ _ (best extreme listed) (isExtreme.2 other here')
  · rintro ⟨there, best⟩
    obtain ⟨part, member, here⟩ := List.mem_flatMap.mp there
    constructor
    · refine List.mem_flatMap.mpr ⟨part, member, (each part member _ _).mpr ⟨here, ?_⟩⟩
      exact fun other inside => best other (List.mem_flatMap.mpr ⟨part, member, inside⟩)
    · intro other inside
      obtain ⟨part', member', here'⟩ := List.mem_flatMap.mp inside
      apply best other
      exact List.mem_flatMap.mpr ⟨part', member', ((each part' member' _ _).mp here').1⟩

end Blaze.Extremes
