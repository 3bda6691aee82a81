import Mathlib.Data.List.Forall2
import Std.Data.TreeMap

/-!
# Stored values and keys

Lookups that succeed, read as membership of the key, and values replaced one by one.
-/

namespace KeyedMap

universe u v w

variable {α : Type u} {β : Type v} {cmp : α → α → Ordering} [Std.TransCmp cmp]

/-- A key with a value is in the map. -/
theorem mem_of_getElem? {map : Std.TreeMap α β cmp} {key : α} {value : β}
    (stored : map[key]? = some value) : key ∈ map := by
  rw [Std.TreeMap.mem_iff_isSome_getElem?, stored]
  rfl

/-- A map that holds every value of another has its keys. -/
theorem mem_of_holds {map other : Std.TreeMap α β cmp}
    (holds : ∀ (key : α) (value : β), map[key]? = some value → other[key]? = some value) {key : α}
    (member : key ∈ map) : key ∈ other :=
  mem_of_getElem? (holds key _ (Std.TreeMap.getElem?_eq_some_getElem member))

/-- Every value of a map that was made from a list is in the list, or was there before. -/
theorem exists_of_getElem?_insertMany {entries : List (α × β)} {map : Std.TreeMap α β cmp}
    {key : α} {value : β} (stored : (map.insertMany entries)[key]? = some value) :
    map[key]? = some value ∨ ∃ entry ∈ entries, entry.2 = value := by
  induction entries generalizing map with
  | nil =>
    rw [Std.TreeMap.insertMany_nil] at stored
    exact Or.inl stored
  | cons entry entries ih =>
    rw [Std.TreeMap.insertMany_cons] at stored
    rcases ih stored with before | ⟨other, listed, same⟩
    · rw [Std.TreeMap.getElem?_insert] at before
      split at before
      · exact Or.inr ⟨entry, List.mem_cons_self, Option.some.inj before⟩
      · exact Or.inl before
    · exact Or.inr ⟨other, List.mem_cons_of_mem _ listed, same⟩

theorem exists_of_getElem?_ofList {entries : List (α × β)} {key : α} {value : β}
    (stored : (Std.TreeMap.ofList entries cmp)[key]? = some value) :
    ∃ entry ∈ entries, entry.2 = value := by
  cases entries with
  | nil =>
    rw [Std.TreeMap.ofList_nil, Std.TreeMap.getElem?_emptyc] at stored
    cases stored
  | cons entry entries =>
    rw [Std.TreeMap.ofList_cons, ← Std.TreeMap.insertMany_cons] at stored
    rcases exists_of_getElem?_insertMany stored with before | listed
    · rw [Std.TreeMap.getElem?_emptyc] at before
      cases before
    · exact listed

section Lawful

variable [Std.LawfulEqCmp cmp] [BEq α] [LawfulBEq α] [Std.LawfulBEqCmp cmp]

/-- Replacing the values of a map one by one. -/
theorem rel_ofList_zip {γ : Type w} {R : β → γ → Prop} {map : Std.TreeMap α β cmp}
    {values : List γ} (related : List.Forall₂ R (map.toList.map Prod.snd) values) (key : α) :
    Option.Rel R map[key]?
      (Std.TreeMap.ofList ((map.toList.map Prod.fst).zip values) cmp)[key]? := by
  have same : (map.toList.map Prod.fst).length = values.length := by
    rw [List.length_map, ← related.length_eq, List.length_map]
  have keys : ((map.toList.map Prod.fst).zip values).map Prod.fst = map.toList.map Prod.fst :=
    List.map_fst_zip (Nat.le_of_eq same)
  cases stored : map[key]? with
  | none =>
    have absent : key ∉ map.toList.map Prod.fst := by
      intro member
      obtain ⟨entry, listed, rfl⟩ := List.mem_map.mp member
      rw [Std.TreeMap.mem_toList_iff_getElem?_eq_some.mp listed] at stored
      cases stored
    rw [Std.TreeMap.getElem?_ofList_of_contains_eq_false]
    · exact .none
    · rw [keys, List.contains_eq_mem]
      exact decide_eq_false absent
  | some value =>
    have listed := Std.TreeMap.mem_toList_iff_getElem?_eq_some.mpr stored
    obtain ⟨i, inside, at_i⟩ := List.getElem_of_mem listed
    obtain ⟨length, each⟩ := List.forall₂_iff_get.mp related
    rw [List.length_map] at length
    have own := each i (by rwa [List.length_map]) (length ▸ inside)
    rw [List.get_eq_getElem, List.get_eq_getElem, List.getElem_map, at_i] at own
    have zipped : (key, values[i]) ∈ (map.toList.map Prod.fst).zip values := by
      refine List.mem_iff_getElem.mpr ⟨i, ?_, ?_⟩
      · rw [List.length_zip, List.length_map, ← length, Nat.min_self]
        exact inside
      · rw [List.getElem_zip, List.getElem_map, at_i]
    rw [Std.TreeMap.getElem?_ofList_of_mem (Std.ReflCmp.compare_self) ?_ zipped]
    · exact .some own
    · have distinct := Std.TreeMap.distinct_keys_toList (t := map)
      rw [← List.pairwise_map (f := Prod.fst) (R := fun a b => ¬ cmp a b = .eq)] at distinct ⊢
      rwa [keys]

end Lawful

end KeyedMap
