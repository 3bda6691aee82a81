import Blaze.Lib.PairTable

/-!
# Stacks of parent tables

Tables of parents stacked oldest first, where each one lies over the older ones.  No
point is a key twice and no value is a key at or below its own table, so one walk
forward through the tables ends where following parents in all of them at once ends.
-/

namespace PairTable

open List RootMap

universe u

variable {α : Type u} [LinearOrder α]

/-- No point is a key twice, parents are smaller, and no value of a table is a key of
that table or of an older one. -/
structure KeysApart (tables : List (List (α × α))) : Prop where
  once : (tables.flatMap fun table => table.map Prod.fst).Nodup
  smaller : ∀ table ∈ tables, ∀ pair ∈ table, pair.2 < pair.1
  settled : ∀ (i j : Nat) (newer older : List (α × α)), j ≤ i → tables[i]? = some newer →
    tables[j]? = some older → ∀ pair ∈ newer, pair.2 ∉ older.map Prod.fst

/-- Some table stores the parent. -/
def Parent (tables : List (List (α × α))) (x y : α) : Prop :=
  ∃ table ∈ tables, (x, y) ∈ table

/-- What a lookup finds is where the parents of all tables lead, and nothing if they
lead nowhere. -/
structure Follows (tables : List (List (α × α))) (x : α) (found : Option α) : Prop where
  reaches : Relation.ReflTransGen (Parent tables) x (found.getD x)
  ends : ∀ y, ¬ Parent tables (found.getD x) y
  only : ∀ r, Relation.ReflTransGen (Parent tables) x r → (∀ y, ¬ Parent tables r y) →
    r = found.getD x
  moves : found ≠ some x

variable {tables : List (List (α × α))}

/-- Layered tables have their keys apart. -/
theorem keysApart_of_layered (resolved : ∀ table ∈ tables, Resolved table)
    (layered : Layered (tables.map tableRoot)) : KeysApart tables := by
  refine ⟨?_, fun table member => (resolved table member).smaller, ?_⟩
  · induction tables with
    | nil => simp
    | cons table tables ih =>
      have here := resolved table mem_cons_self
      have rest : ∀ other ∈ tables, Resolved other := fun other member =>
        resolved other (mem_cons_of_mem table member)
      rw [flatMap_cons, nodup_append']
      refine ⟨here.nodup, ih rest layered.tail, ?_⟩
      intro k inHere inRest
      obtain ⟨newer, member, key⟩ := mem_flatMap.mp inRest
      have atop := (pairwise_cons.mp layered.atop).1 (tableRoot newer)
        (mem_map.mpr ⟨newer, member, rfl⟩)
      have moved := ((rest newer member).tableRoot_ne_iff k).mpr key
      exact (here.tableRoot_ne_iff k).mpr inHere (atop k moved).1
  · intro i j newer older order atNewer atOlder pair member key
    have here := resolved newer (mem_of_getElem? atNewer)
    have below := resolved older (mem_of_getElem? atOlder)
    rcases order.eq_or_lt with rfl | before
    · cases atNewer.symm.trans atOlder
      exact here.settled pair member key
    · have stored : tableRoot newer pair.1 = pair.2 :=
        tableRoot_of_mem here.nodup (y := pair.2) member
      have moved : tableRoot newer pair.1 ≠ pair.1 := by
        rw [stored]
        exact (here.smaller pair member).ne
      have atop : Over (tableRoot newer) (tableRoot older) := by
        obtain ⟨inside, rfl⟩ := List.getElem?_eq_some_iff.mp atNewer
        obtain ⟨inside', rfl⟩ := List.getElem?_eq_some_iff.mp atOlder
        have pairwise := pairwise_iff_getElem.mp layered.atop j i
          (by simpa using inside') (by simpa using inside) before
        simpa using pairwise
      have fixed := (atop pair.1 moved).2
      rw [stored] at fixed
      exact (below.tableRoot_ne_iff pair.2).mpr key fixed

theorem KeysApart.parent_unique (apart : KeysApart tables) :
    Relator.RightUnique (Parent tables) := by
  rintro x y z ⟨table, member, stored⟩ ⟨other, member', stored'⟩
  have distinct : (tables.flatten.map Prod.fst).Nodup := by
    rw [map_flatten, ← flatMap_def]
    exact apart.once
  have same := inj_on_of_nodup_map distinct (mem_flatten.mpr ⟨table, member, stored⟩)
    (mem_flatten.mpr ⟨other, member', stored'⟩) rfl
  exact congrArg Prod.snd same

/-- One walk through the tables follows parents. -/
theorem reaches_stackRoot (resolved : ∀ table ∈ tables, Resolved table) (x : α) :
    Relation.ReflTransGen (Parent tables) x (stackRoot (tables.map tableRoot) x) := by
  induction tables generalizing x with
  | nil => exact .refl
  | cons table tables ih =>
    have here := resolved table mem_cons_self
    have rest := ih
      (fun other member => resolved other (mem_cons_of_mem table member))
      (tableRoot table x)
    have wider : Relation.ReflTransGen (Parent (table :: tables)) (tableRoot table x)
        (stackRoot (tables.map tableRoot) (tableRoot table x)) := by
      apply Relation.ReflTransGen.mono ?_ _ _ rest
      rintro y z ⟨other, member, stored⟩
      exact ⟨other, mem_cons_of_mem table member, stored⟩
    rw [map_cons, stackRoot_cons]
    by_cases key : x ∈ table.map Prod.fst
    · obtain ⟨pair, stored, rfl⟩ := mem_map.mp key
      have value : tableRoot table pair.1 = pair.2 :=
        tableRoot_of_mem here.nodup (y := pair.2) stored
      rw [value] at wider ⊢
      exact Relation.ReflTransGen.head ⟨table, mem_cons_self, stored⟩ wider
    · rwa [tableRoot_of_not_mem key] at wider ⊢

/-- A lookup that walks through layered tables once follows the parents of all of
them. -/
theorem follows_of_layered (resolved : ∀ table ∈ tables, Resolved table)
    (layered : Layered (tables.map tableRoot)) {x : α} {found : Option α}
    (root : found.getD x = stackRoot (tables.map tableRoot) x) (moves : found ≠ some x) :
    Follows tables x found := by
  have reaches := reaches_stackRoot resolved x
  have ends : ∀ y, ¬ Parent tables (stackRoot (tables.map tableRoot) x) y := by
    rintro y ⟨table, member, stored⟩
    have fixed := layered.fixes x (tableRoot table) (mem_map.mpr ⟨table, member, rfl⟩)
    have key : stackRoot (tables.map tableRoot) x ∈ table.map Prod.fst :=
      mem_map.mpr ⟨_, stored, rfl⟩
    exact ((resolved table member).tableRoot_ne_iff _).mpr key fixed
  rw [← root] at reaches ends
  refine ⟨reaches, ends, ?_, moves⟩
  intro r toR rEnds
  -- the parent of a point is unique, so one of the two ends lies on the way to the other
  have unique := (keysApart_of_layered resolved layered).parent_unique
  rcases Relation.ReflTransGen.total_of_right_unique unique toR reaches with onward | back
  · rcases Relation.ReflTransGen.cases_head onward with same | ⟨next, parent, -⟩
    · exact same
    · exact absurd parent (rEnds next)
  · rcases Relation.ReflTransGen.cases_head back with same | ⟨next, parent, -⟩
    · exact same.symm
    · exact absurd parent (ends next)

end PairTable
