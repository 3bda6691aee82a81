import Blaze.Lib.KWayMerge
import Blaze.Lib.TableStack
import Blaze.Storage.Base

/-!
# The layered base

A base layer and the deltas folded over it, oldest first, presented as one
routing base.  A lookup walks the layers forward once; the pair visitors are a
merge over the layers' sorted tables.
-/

namespace Blaze

open List RootMap PairTable

variable {layers : List PuffinBase} {base : LayeredBase}

/-- A stack of routing files, oldest first; never empty. -/
structure LayeredBase where
  layers : List PuffinBase
  nonempty : layers ≠ []

namespace LayeredBase

/-- A single base layer with no deltas. -/
def new (base : PuffinBase) : LayeredBase :=
  ⟨[base], by simp⟩

/-- Base plus deltas in commit order. -/
def fromLayers (layers : List PuffinBase) : Except String LayeredBase :=
  if nonempty : layers = [] then
    .error "a layered base needs at least a base"
  else
    .ok ⟨layers, nonempty⟩

/-- This base with `delta` appended as the newest layer. -/
def pushed (base : LayeredBase) (delta : PuffinBase) : LayeredBase :=
  ⟨base.layers ++ [delta], by simp⟩

/-- The layers of a range as a stack of their own. -/
def slice (base : LayeredBase) (start stop : Nat) : Except String LayeredBase :=
  if stop ≤ base.layers.length then
    fromLayers ((base.layers.take stop).drop start)
  else
    .error "merge range runs past the layers in the stack"

/-- This stack with a range replaced by the single layer that merged it. -/
def spliced (base : LayeredBase) (start stop : Nat) (merged : PuffinBase) :
    Except String LayeredBase :=
  if start < stop ∧ stop ≤ base.layers.length then
    fromLayers (base.layers.take start ++ merged :: base.layers.drop stop)
  else
    .error "splice range does not name layers of the stack"

/-- Walk the layers forward: a hit continues in the layers after it, a hit that
returns the node itself stops the walk. -/
def resolveLoop (probe : PuffinBase → NodeId → Option NodeId) :
    List PuffinBase → NodeId → NodeId
  | [], cur => cur
  | layer :: layers, cur =>
      match probe layer cur with
      | none => resolveLoop probe layers cur
      | some parent => if parent ≠ cur then resolveLoop probe layers parent else cur

def resolve (base : LayeredBase) (probe : PuffinBase → NodeId → Option NodeId)
    (node : NodeId) : Option NodeId :=
  let cur := resolveLoop probe base.layers node
  if cur ≠ node then some cur else none

def sharedParent (base : LayeredBase) (node : NodeId) : Option NodeId :=
  base.resolve PuffinBase.sharedParent node

def overlayParent (base : LayeredBase) (scope : ScopeId) (node : NodeId) : Option NodeId :=
  base.resolve (fun layer => layer.overlayParent scope) node

/-- The scopes any layer has recorded at a root, each once, in the order they
are met. -/
def scopesForRoot (base : LayeredBase) (root : NodeId) : List ScopeId :=
  (base.layers.flatMap fun layer => layer.scopesForRoot root).foldl
    (fun out scope => if out.contains scope then out else out ++ [scope]) []

def scopes (base : LayeredBase) : List ScopeId :=
  SortDedup.sortDedup (base.layers.flatMap PuffinBase.scopes)

/-- Every key across the layers in ascending order, with its resolved value. -/
def mergePairs (tables : List (List (NodeId × NodeId))) (resolve : NodeId → Option NodeId) :
    List (NodeId × NodeId) :=
  (KWayMerge.merge Prod.fst tables).filterMap fun pair =>
    let root := (resolve pair.2).getD pair.2
    if root ≠ pair.1 then some (pair.1, root) else none

def sharedPairs (base : LayeredBase) : List (NodeId × NodeId) :=
  mergePairs (base.layers.map PuffinBase.shared) base.sharedParent

def overlayPairs (base : LayeredBase) (scope : ScopeId) : List (NodeId × NodeId) :=
  mergePairs (base.layers.map fun layer => layer.overlay scope) (base.overlayParent scope)

instance : RoutingBase LayeredBase where
  sharedParent := sharedParent
  overlayParent := overlayParent
  scopesForRoot := scopesForRoot
  scopes := scopes
  sharedPairs := sharedPairs
  overlayPairs := overlayPairs

/-! ## Well-formed stacks -/

/-- The layers' tables are resolved, and each layer lies over the ones below it
in the shared tier and in every overlay. -/
structure StackOk (layers : List PuffinBase) : Prop where
  wellFormed : ∀ layer ∈ layers, layer.WellFormed
  shared : Layered (layers.map PuffinBase.sharedRoot)
  overlay : ∀ s, Layered (layers.map fun layer => layer.overlayRoot s)

/-- The shared root map of a stack. -/
def stackShared (layers : List PuffinBase) : NodeId → NodeId :=
  stackRoot (layers.map PuffinBase.sharedRoot)

/-- The overlay root map of a stack for one scope. -/
def stackOverlay (layers : List PuffinBase) (s : ScopeId) : NodeId → NodeId :=
  stackRoot (layers.map fun layer => layer.overlayRoot s)

/-- A scope is recorded at a root by some layer. -/
def Recorded (layers : List PuffinBase) (root : NodeId) (s : ScopeId) : Prop :=
  ∃ layer ∈ layers, s ∈ layer.scopesForRoot root

/-- The forward walk computes the root map of the stack.  The table of a layer
is given by `table`, so that the two tiers share one proof. -/
theorem resolveLoop_eq (table : PuffinBase → List (NodeId × NodeId))
    (resolved : ∀ layer ∈ layers, Resolved (table layer)) (x : NodeId) :
    resolveLoop (fun layer node => (table layer).lookup node) layers x =
      stackRoot (layers.map fun layer => tableRoot (table layer)) x := by
  induction layers generalizing x with
  | nil => rfl
  | cons layer layers ih =>
    have rest := ih fun l member => resolved l (mem_cons_of_mem layer member)
    have here := resolved layer mem_cons_self
    rw [map_cons, stackRoot_cons]
    cases stored : (table layer).lookup x with
    | none =>
      simp only [resolveLoop, stored, tableRoot, Option.getD_none]
      exact rest x
    | some parent =>
      have member := (lookup_eq_some_iff here.nodup).mp stored
      have moved : parent ≠ x := (here.smaller _ member).ne
      simp only [resolveLoop, stored, tableRoot, Option.getD_some, ne_eq, moved,
        not_false_eq_true, if_true]
      exact rest parent

theorem resolve_getD (base : LayeredBase) (probe : PuffinBase → NodeId → Option NodeId)
    (x : NodeId) : (base.resolve probe x).getD x = resolveLoop probe base.layers x := by
  unfold resolve
  dsimp only
  split
  · rfl
  · next same => simpa using (not_not.mp same).symm

theorem sharedParent_getD (ok : StackOk base.layers) (x : NodeId) :
    (base.sharedParent x).getD x = stackShared base.layers x := by
  rw [sharedParent, resolve_getD]
  exact resolveLoop_eq PuffinBase.shared (fun layer member => (ok.wellFormed layer member).shared) x

theorem overlayParent_getD (ok : StackOk base.layers) (s : ScopeId) (x : NodeId) :
    (base.overlayParent s x).getD x = stackOverlay base.layers s x := by
  rw [overlayParent, resolve_getD]
  exact resolveLoop_eq (fun layer => layer.overlay s)
    (fun layer member => (ok.wellFormed layer member).overlays s) x

/-- Appending scopes that are not there yet collects exactly the scopes seen. -/
theorem mem_foldl_collect (scopes out : List ScopeId) (s : ScopeId) :
    s ∈ scopes.foldl (fun out scope => if out.contains scope then out else out ++ [scope]) out ↔
      s ∈ out ∨ s ∈ scopes := by
  induction scopes generalizing out with
  | nil => simp
  | cons scope scopes ih =>
    rw [foldl_cons, ih]
    by_cases present : scope ∈ out
    · rw [if_pos (by simpa using present)]
      constructor
      · rintro (old | later)
        · exact Or.inl old
        · exact Or.inr (mem_cons_of_mem scope later)
      · rintro (old | new)
        · exact Or.inl old
        · rcases mem_cons.mp new with rfl | later
          · exact Or.inl present
          · exact Or.inr later
    · rw [if_neg (by simpa using present)]
      simp only [mem_append, mem_cons]
      tauto

theorem mem_scopesForRoot (base : LayeredBase) (root : NodeId) (s : ScopeId) :
    s ∈ base.scopesForRoot root ↔ Recorded base.layers root s := by
  rw [scopesForRoot, mem_foldl_collect]
  simp [Recorded]

/-! ## The pair visitors -/

/-- The keys of layered tables are pairwise disjoint: a key of a newer layer is
a point the older layers fix. -/
theorem disjoint_keys (table : PuffinBase → List (NodeId × NodeId))
    (resolved : ∀ layer ∈ layers, Resolved (table layer))
    (layered : Layered (layers.map fun layer => tableRoot (table layer))) :
    (layers.flatMap fun layer => (table layer).map Prod.fst).Nodup := by
  have apart : KeysApart (layers.map table) := by
    apply keysApart_of_layered
    · intro pairs member
      obtain ⟨layer, inside, rfl⟩ := mem_map.mp member
      exact resolved layer inside
    · rw [map_map]
      exact layered
  have once := apart.once
  rwa [flatMap_map] at once

/-- Merging the layers' tables lists each point the stack moves once, in
ascending order, with its root in the stack. -/
theorem mergePairs_eq (table : PuffinBase → List (NodeId × NodeId))
    (resolved : ∀ layer ∈ layers, Resolved (table layer))
    (layered : Layered (layers.map fun layer => tableRoot (table layer)))
    (resolve : NodeId → Option NodeId) (resolves : ∀ x, (resolve x).getD x =
      stackRoot (layers.map fun layer => tableRoot (table layer)) x) :
    ∃ keys : List NodeId, keys.Pairwise (· < ·) ∧
      (∀ x, x ∈ keys ↔ stackRoot (layers.map fun layer => tableRoot (table layer)) x ≠ x) ∧
      mergePairs (layers.map table) resolve =
        tableOf keys (stackRoot (layers.map fun layer => tableRoot (table layer))) := by
  set root := stackRoot (layers.map fun layer => tableRoot (table layer)) with rootDef
  set merged := KWayMerge.merge Prod.fst (layers.map table) with mergedDef
  have perm : merged.Perm (layers.map table).flatten := KWayMerge.merge_perm _
  have keysPerm : (merged.map Prod.fst).Perm
      (layers.flatMap fun layer => (table layer).map Prod.fst) := by
    have mapped := perm.map Prod.fst
    rwa [map_flatten, map_map, ← flatMap_def] at mapped
  have distinct : (merged.map Prod.fst).Nodup :=
    keysPerm.nodup_iff.mpr (disjoint_keys table resolved layered)
  have ascending : (merged.map Prod.fst).Pairwise (· < ·) := by
    have weak : merged.Pairwise fun a b => a.1 ≤ b.1 := by
      refine KWayMerge.merge_ascending fun run member => ?_
      obtain ⟨layer, layerMember, rfl⟩ := mem_map.mp member
      have strict := (resolved layer layerMember).ascending
      rw [pairwise_map] at strict
      exact strict.imp fun order => order.le
    have weakKeys : (merged.map Prod.fst).Pairwise (· ≤ ·) := pairwise_map.mpr weak
    exact (weakKeys.and distinct).imp fun both => lt_of_le_of_ne both.1 both.2
  have rootOfPair : ∀ pair ∈ merged, root pair.2 = root pair.1 ∧ root pair.1 ≠ pair.1 := by
    intro pair member
    obtain ⟨run, runMember, pairMember⟩ := KWayMerge.mem_merge.mp member
    obtain ⟨layer, layerMember, rfl⟩ := mem_map.mp runMember
    have here := resolved layer layerMember
    have stored : tableRoot (table layer) pair.1 = pair.2 :=
      tableRoot_of_mem here.nodup (y := pair.2) pairMember
    have movedHere : tableRoot (table layer) pair.1 ≠ pair.1 := by
      rw [stored]
      exact (here.smaller pair pairMember).ne
    have listed : tableRoot (table layer) ∈ layers.map fun layer => tableRoot (table layer) :=
      mem_map.mpr ⟨layer, layerMember, rfl⟩
    refine ⟨?_, fun fixed => ?_⟩
    · rw [← stored]
      exact layered.stackRoot_layer listed pair.1
    · exact movedHere ((stackRoot_eq_self_iff layered.rootMap pair.1).mp fixed _ listed)
  refine ⟨merged.map Prod.fst, ascending, fun x => ?_, ?_⟩
  · constructor
    · intro key
      obtain ⟨pair, member, rfl⟩ := mem_map.mp key
      exact (rootOfPair pair member).2
    · intro moved
      have someMoves : ∃ layer ∈ layers, tableRoot (table layer) x ≠ x := by
        by_contra none
        push Not at none
        refine moved ((stackRoot_eq_self_iff layered.rootMap x).mpr fun f member => ?_)
        obtain ⟨layer, layerMember, rfl⟩ := mem_map.mp member
        exact none layer layerMember
      obtain ⟨layer, layerMember, movedHere⟩ := someMoves
      have key := ((resolved layer layerMember).tableRoot_ne_iff x).mp movedHere
      rw [keysPerm.mem_iff]
      exact mem_flatMap.mpr ⟨layer, layerMember, key⟩
  · unfold mergePairs tableOf
    rw [← mergedDef, map_map]
    have pointwise : ∀ pair ∈ merged,
        (let r := (resolve pair.2).getD pair.2
         if r ≠ pair.1 then some (pair.1, r) else none) =
          some ((fun k => (k, root k)) pair.1) := by
      intro pair member
      obtain ⟨same, moved⟩ := rootOfPair pair member
      dsimp only
      rw [resolves, same, if_pos moved]
    rw [filterMap_congr pointwise]
    simp [filterMap_eq_map', Function.comp_def]

theorem lawful (ok : StackOk base.layers) : RoutingBase.Lawful (some base) := by
  have sharedEq : RoutingBase.sharedRoot (some base) = stackShared base.layers := by
    funext x
    exact sharedParent_getD ok x
  have overlayEq : ∀ s, RoutingBase.overlayRoot (some base) s = stackOverlay base.layers s := by
    intro s
    funext x
    exact overlayParent_getD ok s x
  obtain ⟨keys, ascending, members, pairsEq⟩ := mergePairs_eq PuffinBase.shared
    (fun layer member => (ok.wellFormed layer member).shared) ok.shared base.sharedParent
    (sharedParent_getD ok)
  have overlays := fun s => mergePairs_eq (fun layer => layer.overlay s)
    (fun layer member => (ok.wellFormed layer member).overlays s) (ok.overlay s)
    (base.overlayParent s) (overlayParent_getD ok s)
  have sharedKeysEq : RoutingBase.sharedKeys (some base) = keys := by
    change base.sharedPairs.map Prod.fst = keys
    rw [sharedPairs, pairsEq, map_fst_tableOf]
  refine ⟨?_, fun s => ?_, ?_, fun x => ?_, fun s => ?_, fun s x => ?_, fun s x moved => ?_⟩
  · rw [sharedEq]
    exact ok.shared.isRootMap
  · rw [overlayEq]
    exact (ok.overlay s).isRootMap
  · rw [sharedKeysEq]
    exact ascending
  · rw [sharedKeysEq, sharedEq]
    exact members x
  · obtain ⟨overlayKeys, ascending', members', pairsEq'⟩ := overlays s
    have keysEq : RoutingBase.overlayKeys (some base) s = overlayKeys := by
      change (base.overlayPairs s).map Prod.fst = overlayKeys
      rw [overlayPairs, pairsEq', map_fst_tableOf]
    rw [keysEq]
    exact ascending'
  · obtain ⟨overlayKeys, ascending', members', pairsEq'⟩ := overlays s
    have keysEq : RoutingBase.overlayKeys (some base) s = overlayKeys := by
      change (base.overlayPairs s).map Prod.fst = overlayKeys
      rw [overlayPairs, pairsEq', map_fst_tableOf]
    rw [keysEq, overlayEq]
    exact members' x
  · change s ∈ base.scopes
    rw [overlayEq] at moved
    have someMoves : ∃ layer ∈ base.layers, layer.overlayRoot s x ≠ x := by
      by_contra none
      push Not at none
      refine moved ((stackRoot_eq_self_iff (ok.overlay s).rootMap x).mpr fun f member => ?_)
      obtain ⟨layer, layerMember, rfl⟩ := mem_map.mp member
      exact none layer layerMember
    obtain ⟨layer, layerMember, movedHere⟩ := someMoves
    rw [scopes, SortDedup.mem_sortDedup, mem_flatMap]
    exact ⟨layer, layerMember, PuffinBase.mem_scopes_of_overlayRoot movedHere⟩

end LayeredBase

end Blaze
