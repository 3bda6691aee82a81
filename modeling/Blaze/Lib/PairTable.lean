import Blaze.Lib.RootMap

/-!
# Sorted tables of resolved pairs

A table stores, in ascending order, the points a root map moves together with
their roots.  Looking a point up and falling back to the point itself recovers
the root map.
-/

namespace PairTable

open List RootMap

universe u

variable {α : Type u} [LinearOrder α]

/-- The stored value of a point, or the point itself. -/
def tableRoot (pairs : List (α × α)) (x : α) : α :=
  (pairs.lookup x).getD x

/-- Keys ascend strictly, values are smaller than their keys, and no value is
itself a key. -/
structure Resolved (pairs : List (α × α)) : Prop where
  ascending : (pairs.map Prod.fst).Pairwise (· < ·)
  smaller : ∀ pair ∈ pairs, pair.2 < pair.1
  settled : ∀ pair ∈ pairs, pair.2 ∉ pairs.map Prod.fst

/-- The table of a function at the given keys. -/
def tableOf (keys : List α) (f : α → α) : List (α × α) :=
  keys.map fun k => (k, f k)

omit [LinearOrder α] in
@[simp]
theorem map_fst_tableOf (keys : List α) (f : α → α) : (tableOf keys f).map Prod.fst = keys := by
  simp [tableOf, Function.comp_def]

theorem lookup_eq_some_iff {pairs : List (α × α)} (distinct : (pairs.map Prod.fst).Nodup)
    {x y : α} : pairs.lookup x = some y ↔ (x, y) ∈ pairs := by
  induction pairs with
  | nil => simp
  | cons pair pairs ih =>
    obtain ⟨k, v⟩ := pair
    simp only [map_cons, nodup_cons] at distinct
    by_cases hit : x = k
    · subst hit
      rw [lookup_cons_self]
      constructor
      · rintro ⟨⟩
        exact mem_cons_self
      · intro member
        rcases mem_cons.mp member with same | later
        · cases same; rfl
        · exact absurd (mem_map_of_mem (f := Prod.fst) later) distinct.1
    · rw [lookup_cons]
      simp only [beq_false_of_ne hit]
      rw [ih distinct.2, mem_cons]
      simp [hit]

theorem lookup_eq_none_iff {pairs : List (α × α)} {x : α} :
    pairs.lookup x = none ↔ x ∉ pairs.map Prod.fst := by
  induction pairs with
  | nil => simp
  | cons pair pairs ih =>
    obtain ⟨k, v⟩ := pair
    by_cases hit : x = k
    · subst hit
      simp
    · rw [lookup_cons]
      simp only [beq_false_of_ne hit]
      rw [ih]
      simp [hit]

theorem tableRoot_of_mem {pairs : List (α × α)} (distinct : (pairs.map Prod.fst).Nodup)
    {x y : α} (member : (x, y) ∈ pairs) : tableRoot pairs x = y := by
  rw [tableRoot, (lookup_eq_some_iff distinct).mpr member]
  rfl

theorem tableRoot_of_not_mem {pairs : List (α × α)} {x : α} (absent : x ∉ pairs.map Prod.fst) :
    tableRoot pairs x = x := by
  rw [tableRoot, lookup_eq_none_iff.mpr absent]
  rfl

@[simp]
theorem tableRoot_nil (x : α) : tableRoot [] x = x :=
  rfl

theorem tableRoot_cons (pair : α × α) (pairs : List (α × α)) (x : α) :
    tableRoot (pair :: pairs) x = if x = pair.1 then pair.2 else tableRoot pairs x := by
  unfold tableRoot
  by_cases hit : x = pair.1
  · rw [if_pos hit, lookup_cons, hit, beq_self_eq_true]
    rfl
  · rw [if_neg hit, lookup_cons, beq_false_of_ne hit]

namespace Resolved

variable {pairs : List (α × α)}

theorem nodup (resolved : Resolved pairs) : (pairs.map Prod.fst).Nodup :=
  resolved.ascending.imp fun order => order.ne

theorem of_cons {pair : α × α} (resolved : Resolved (pair :: pairs)) : Resolved pairs where
  ascending := (pairwise_cons.mp resolved.ascending).2
  smaller other member := resolved.smaller other (mem_cons_of_mem pair member)
  settled other member key :=
    resolved.settled other (mem_cons_of_mem pair member) (mem_cons_of_mem pair.1 key)

theorem tableRoot_ne_iff (resolved : Resolved pairs) (x : α) :
    tableRoot pairs x ≠ x ↔ x ∈ pairs.map Prod.fst := by
  constructor
  · intro moved
    by_contra absent
    exact moved (tableRoot_of_not_mem absent)
  · intro key
    obtain ⟨pair, member, rfl⟩ := mem_map.mp key
    rw [tableRoot_of_mem resolved.nodup (y := pair.2) member]
    exact (resolved.smaller pair member).ne

theorem isRootMap (resolved : Resolved pairs) : IsRootMap (tableRoot pairs) where
  le_self x := by
    by_cases key : x ∈ pairs.map Prod.fst
    · obtain ⟨pair, member, rfl⟩ := mem_map.mp key
      rw [tableRoot_of_mem resolved.nodup (y := pair.2) member]
      exact (resolved.smaller pair member).le
    · rw [tableRoot_of_not_mem key]
  idem x := by
    by_cases key : x ∈ pairs.map Prod.fst
    · obtain ⟨pair, member, rfl⟩ := mem_map.mp key
      rw [tableRoot_of_mem resolved.nodup (y := pair.2) member]
      exact tableRoot_of_not_mem (resolved.settled pair member)
    · rw [tableRoot_of_not_mem key, tableRoot_of_not_mem key]

theorem eq_tableOf (resolved : Resolved pairs) :
    pairs = tableOf (pairs.map Prod.fst) (tableRoot pairs) := by
  have stored : ∀ pair ∈ pairs, (pair.1, tableRoot pairs pair.1) = pair := by
    intro pair member
    rw [tableRoot_of_mem resolved.nodup (y := pair.2) member]
  rw [tableOf, map_map]
  exact ((map_congr_left stored).trans (map_id pairs)).symm

/-- A resolved table is determined by its root map. -/
theorem ext {others : List (α × α)} (resolved : Resolved pairs) (resolved' : Resolved others)
    (same : tableRoot pairs = tableRoot others) : pairs = others := by
  have keys : pairs.map Prod.fst = others.map Prod.fst := by
    apply resolved.ascending.eq_of_mem_iff resolved'.ascending
    intro x
    rw [← resolved.tableRoot_ne_iff, ← resolved'.tableRoot_ne_iff, same]
  rw [resolved.eq_tableOf, resolved'.eq_tableOf, keys, same]

/-- Keys are above their values, so zero is none of them. -/
theorem length_lt {pairs : List (Nat × Nat)} (resolved : Resolved pairs) {bound : Nat}
    (positive : 0 < bound) (below : ∀ pair ∈ pairs, pair.1 < bound) : pairs.length < bound := by
  have inside : pairs.map Prod.fst ⊆ List.range' 1 (bound - 1) := by
    intro key member
    obtain ⟨pair, held, rfl⟩ := mem_map.mp member
    have above := resolved.smaller pair held
    have small := below pair held
    rw [mem_range'_1]
    omega
  have few := (resolved.nodup.subperm inside).length_le
  rw [length_map, length_range'] at few
  omega

end Resolved

theorem resolved_nil : Resolved ([] : List (α × α)) :=
  ⟨List.Pairwise.nil, by simp, by simp⟩

section TableOf

variable {keys : List α} {f : α → α}

/-- Listing exactly the points a root map moves gives a resolved table of
it. -/
theorem resolved_tableOf (root : IsRootMap f) (ascending : keys.Pairwise (· < ·))
    (moved : ∀ k ∈ keys, f k ≠ k) : Resolved (tableOf keys f) where
  ascending := by simpa using ascending
  smaller := by
    intro pair member
    obtain ⟨k, key, rfl⟩ := mem_map.mp member
    exact root.lt_self (moved k key)
  settled := by
    intro pair member
    obtain ⟨k, key, rfl⟩ := mem_map.mp member
    rw [map_fst_tableOf]
    exact fun value => moved (f k) value (root.idem k)

theorem tableRoot_tableOf (distinct : keys.Nodup) (complete : ∀ x, f x ≠ x → x ∈ keys) :
    tableRoot (tableOf keys f) = f := by
  funext x
  by_cases key : x ∈ keys
  · exact tableRoot_of_mem (by simpa using distinct) (mem_map.mpr ⟨x, key, rfl⟩)
  · rw [tableRoot_of_not_mem (by simpa using key)]
    by_contra moved
    exact key (complete x (Ne.symm moved))

end TableOf

end PairTable
