import Blaze.Storage.Codec
import Blaze.Storage.Layered

/-!
# Storage-side compaction

Merge a stack of layers into one file by reading their tables, without a forest.
The shared and overlay tables come from the layered merge.  The registry runs
are merged in order; entries whose root was absorbed by a newer layer are taken
out, re-keyed to the live root, sorted and woven back in.
-/

namespace Blaze

open List RootMap PairTable LayeredBase

/-- One scope's merged overlay, unless it is empty. -/
def oneOverlay (layers : LayeredBase) (scope : ScopeId) :
    Option (ScopeId × List (NodeId × NodeId)) :=
  let pairs := layers.overlayPairs scope
  if pairs.isEmpty then none else some (scope, pairs)

/-- Every scope's merged overlay, in ascending scope order. -/
def mergeOverlays (layers : LayeredBase) : List (ScopeId × List (NodeId × NodeId)) :=
  layers.scopes.filterMap (oneOverlay layers)

/-- Every node that some delta layer stores a shared parent for. -/
def movedRoots (layers : LayeredBase) : List NodeId :=
  layers.layers.tail.flatMap fun layer => layer.shared.map Prod.fst

/-- Every registry entry across the layers in ascending order. -/
def registryEntries (layers : LayeredBase) : List RegistryEntry :=
  KWayMerge.merge id (layers.layers.map PuffinBase.registryIter)

/-- Merge the sorted corrections into the entries that stayed in order. -/
def weave : List RegistryEntry → List RegistryEntry → List RegistryEntry
  | corrections, [] => corrections
  | corrections, entry :: entries =>
      corrections.takeWhile (· ≤ entry) ++
        entry :: weave (corrections.dropWhile (· ≤ entry)) entries

/-- The entries whose root moved, under their live roots. -/
def corrections (layers : LayeredBase) : List RegistryEntry :=
  SortDedup.sortDedup
    (((registryEntries layers).filter fun entry => (ofLex entry).1 ∈ movedRoots layers).map
      fun entry =>
        let root := (ofLex entry).1
        registryEntry ((layers.sharedParent root).getD root) (ofLex entry).2)

/-- The merged registry run; none when it would be empty. -/
def compactRegistry (layers : LayeredBase) : Option (List RegistryEntry) :=
  let inOrder := (registryEntries layers).filter fun entry =>
    (ofLex entry).1 ∉ movedRoots layers
  let written := SortDedup.dedup (weave (corrections layers) inOrder)
  if written.isEmpty then none else some written

/-- Merge a stack of layers into one self-contained file. -/
def compactLayers (layers : LayeredBase) : PuffinBase where
  shared := layers.sharedPairs
  overlays := (mergeOverlays layers).foldl (fun overlays blob => overlays.insert blob.1 blob.2) ∅
  registry := compactRegistry layers

/-! ## The tables -/

theorem mergeOverlays_eq (layers : LayeredBase) :
    mergeOverlays layers = layers.scopes.flatMap fun s =>
      if (layers.overlayPairs s).isEmpty then [] else [(s, layers.overlayPairs s)] := by
  rw [mergeOverlays, filterMap_eq_flatMap_toList]
  congr 1
  funext s
  unfold oneOverlay
  dsimp only
  split <;> rfl

theorem compactLayers_overlay (layers : LayeredBase) (s : ScopeId) :
    (compactLayers layers).overlay s =
      if s ∈ layers.scopes then layers.overlayPairs s else [] := by
  change Std.TreeMap.getD (List.foldl _ ∅ (mergeOverlays layers)) s [] = _
  rw [mergeOverlays_eq, getD_foldl_insert layers.overlayPairs, Std.TreeMap.getD_emptyc]
  by_cases listed : s ∈ layers.scopes <;>
    by_cases empty : layers.overlayPairs s = [] <;> simp [listed, empty]

section Spec

variable {layers : LayeredBase} (ok : StackOk layers.layers)

include ok

theorem compactLayers_sharedRoot :
    (compactLayers layers).sharedRoot = stackShared layers.layers ∧
      Resolved (compactLayers layers).shared := by
  obtain ⟨keys, ascending, members, pairsEq⟩ := mergePairs_eq PuffinBase.shared
    (fun layer member => (ok.wellFormed layer member).shared) ok.shared layers.sharedParent
    (sharedParent_getD ok)
  have tableEq : (compactLayers layers).shared = tableOf keys (stackShared layers.layers) := pairsEq
  rw [PuffinBase.sharedRoot, tableEq]
  exact ⟨tableRoot_tableOf (ascending.imp fun order => order.ne)
      fun x moved => (members x).mpr moved,
    resolved_tableOf ok.shared.isRootMap ascending fun k key => (members k).mp key⟩

theorem compactLayers_overlayRoot (s : ScopeId) :
    (compactLayers layers).overlayRoot s = stackOverlay layers.layers s ∧
      Resolved ((compactLayers layers).overlay s) := by
  obtain ⟨keys, ascending, members, pairsEq⟩ := mergePairs_eq (fun layer => layer.overlay s)
    (fun layer member => (ok.wellFormed layer member).overlays s) (ok.overlay s)
    (layers.overlayParent s) (overlayParent_getD ok s)
  have pairs : layers.overlayPairs s = tableOf keys (stackOverlay layers.layers s) := pairsEq
  have tableEq : (compactLayers layers).overlay s =
      tableOf keys (stackOverlay layers.layers s) := by
    rw [compactLayers_overlay, pairs]
    split
    · rfl
    · next unlisted =>
        have noKeys : keys = [] := by
          rw [eq_nil_iff_forall_not_mem]
          intro x key
          have moved := (members x).mp key
          refine unlisted ((lawful ok).scopes_complete s x ?_)
          change (layers.overlayParent s x).getD x ≠ x
          rw [overlayParent_getD ok s x]
          exact moved
        simp [noKeys, tableOf]
  rw [PuffinBase.overlayRoot, tableEq]
  exact ⟨tableRoot_tableOf (ascending.imp fun order => order.ne)
      fun x moved => (members x).mpr moved,
    resolved_tableOf (ok.overlay s).isRootMap ascending fun k key => (members k).mp key⟩

end Spec

/-! ## The registry -/

theorem mem_weave {entries corrections : List RegistryEntry} (entry : RegistryEntry) :
    entry ∈ weave corrections entries ↔ entry ∈ corrections ∨ entry ∈ entries := by
  induction entries generalizing corrections with
  | nil => simp [weave]
  | cons next entries ih =>
    have split : entry ∈ corrections ↔ entry ∈ corrections.takeWhile (· ≤ next) ∨
        entry ∈ corrections.dropWhile (· ≤ next) := by
      conv_lhs => rw [← takeWhile_append_dropWhile (p := (· ≤ next)) (l := corrections)]
      exact mem_append
    simp only [weave, mem_append, mem_cons, ih, split]
    tauto

/-- Weaving sorted corrections into sorted entries keeps the order. -/
theorem weave_ascending {entries corrections : List RegistryEntry}
    (correctionsAscending : corrections.Pairwise (· ≤ ·))
    (entriesAscending : entries.Pairwise (· ≤ ·)) :
    (weave corrections entries).Pairwise (· ≤ ·) := by
  induction entries generalizing corrections with
  | nil => exact correctionsAscending
  | cons next entries ih =>
    obtain ⟨nextLe, entriesTail⟩ := pairwise_cons.mp entriesAscending
    have restAscending : (corrections.dropWhile (· ≤ next)).Pairwise (· ≤ ·) :=
      correctionsAscending.sublist (dropWhile_sublist _)
    have restAbove : ∀ entry ∈ corrections.dropWhile (· ≤ next), next ≤ entry := by
      intro entry member
      cases rest : corrections.dropWhile (· ≤ next) with
      | nil => simp [rest] at member
      | cons head tail =>
        rw [rest] at member restAscending
        have stopped := head_dropWhile_not (p := (· ≤ next)) (l := corrections)
          (by simp [rest])
        have headAbove : next < head := by simpa [rest] using stopped
        rcases mem_cons.mp member with rfl | later
        · exact headAbove.le
        · exact headAbove.le.trans ((pairwise_cons.mp restAscending).1 entry later)
    simp only [weave]
    refine pairwise_append.mpr ⟨correctionsAscending.sublist (takeWhile_sublist _),
      pairwise_cons.mpr ⟨fun entry member => ?_, ih restAscending entriesTail⟩, ?_⟩
    · rcases (mem_weave entry).mp member with kept | listed
      · exact restAbove entry kept
      · exact nextLe entry listed
    · intro before beforeMember after afterMember
      have below : before ≤ next := by simpa using mem_takeWhile_imp beforeMember
      rcases mem_cons.mp afterMember with rfl | later
      · exact below
      · refine below.trans ?_
        rcases (mem_weave after).mp later with kept | listed
        · exact restAbove after kept
        · exact nextLe after listed

theorem mem_registryEntries (layers : LayeredBase) (entry : RegistryEntry) :
    entry ∈ registryEntries layers ↔ ∃ layer ∈ layers.layers, entry ∈ layer.registryIter := by
  simp [registryEntries, KWayMerge.mem_merge]

theorem compactLayers_registryIter (layers : LayeredBase) :
    (compactLayers layers).registryIter =
      SortDedup.dedup (weave (corrections layers) ((registryEntries layers).filter fun entry =>
        (ofLex entry).1 ∉ movedRoots layers)) := by
  unfold PuffinBase.registryIter compactLayers compactRegistry
  dsimp only
  split
  · next empty => simpa using (List.isEmpty_iff.mp empty).symm
  · rfl

/-- The merged registry holds each entry of the layers, under its live root when
its root was absorbed. -/
theorem mem_compactLayers_registryIter (layers : LayeredBase) (root : NodeId) (s : ScopeId) :
    registryEntry root s ∈ (compactLayers layers).registryIter ↔
      ∃ layer ∈ layers.layers, ∃ r, registryEntry r s ∈ layer.registryIter ∧
        root = if r ∈ movedRoots layers then (layers.sharedParent r).getD r else r := by
  rw [compactLayers_registryIter, SortDedup.mem_dedup, mem_weave, corrections,
    SortDedup.mem_sortDedup]
  simp only [mem_map, mem_filter, mem_registryEntries, decide_eq_true_eq]
  constructor
  · rintro (⟨entry, ⟨⟨layer, layerMember, stored⟩, moved⟩, same⟩ |
      ⟨⟨layer, layerMember, stored⟩, stays⟩)
    · obtain ⟨rootEq, scopeEq⟩ := registryEntry_inj.mp same
      refine ⟨layer, layerMember, (ofLex entry).1, ?_, ?_⟩
      · rw [← scopeEq]
        exact stored
      · rw [if_pos moved, rootEq]
    · exact ⟨layer, layerMember, root, stored, (if_neg stays).symm⟩
  · rintro ⟨layer, layerMember, r, stored, rootEq⟩
    by_cases moved : r ∈ movedRoots layers
    · rw [if_pos moved] at rootEq
      exact Or.inl ⟨registryEntry r s, ⟨⟨layer, layerMember, stored⟩, moved⟩, by rw [rootEq]; rfl⟩
    · rw [if_neg moved] at rootEq
      subst rootEq
      exact Or.inr ⟨⟨layer, layerMember, stored⟩, moved⟩

section Registry

variable {layers : LayeredBase} (ok : StackOk layers.layers)

include ok

theorem compactLayers_registry_ascending :
    (compactLayers layers).registryIter.Pairwise (· < ·) := by
  rw [compactLayers_registryIter]
  refine SortDedup.dedup_ascending (weave_ascending
    ((SortDedup.sortDedup_ascending _).imp fun order => order.le)
    (List.Pairwise.filter _ (KWayMerge.merge_ascending ?_)))
  intro run member
  obtain ⟨layer, layerMember, rfl⟩ := mem_map.mp member
  exact (ok.wellFormed layer layerMember).registry.imp fun order => order.le

/-- If the merged registry is empty, no layer recorded anything, so no layer has
overlay pairs and neither has the merge. -/
theorem compactLayers_indexed (empty : (compactLayers layers).registryIter = []) (s : ScopeId) :
    (compactLayers layers).overlay s = [] := by
  have noLayerEntries : ∀ layer ∈ layers.layers, layer.registryIter = [] := by
    intro layer layerMember
    rw [eq_nil_iff_forall_not_mem]
    intro entry stored
    have kept := (mem_compactLayers_registryIter layers _ (ofLex entry).2).mpr
      ⟨layer, layerMember, (ofLex entry).1, stored, rfl⟩
    rw [empty] at kept
    cases kept
  have identity : stackOverlay layers.layers s = fun x => x := by
    funext x
    refine (stackRoot_eq_self_iff (ok.overlay s).rootMap x).mpr fun f member => ?_
    obtain ⟨layer, layerMember, rfl⟩ := mem_map.mp member
    rw [PuffinBase.overlayRoot,
      (ok.wellFormed layer layerMember).indexed (noLayerEntries layer layerMember) s, tableRoot_nil]
  obtain ⟨rootEq, resolved⟩ := compactLayers_overlayRoot ok s
  rw [eq_nil_iff_forall_not_mem]
  intro pair member
  have moved := (resolved.tableRoot_ne_iff pair.1).mpr (mem_map_of_mem (f := Prod.fst) member)
  refine moved ?_
  change (compactLayers layers).overlayRoot s pair.1 = pair.1
  rw [rootEq, identity]

theorem compactLayers_wellFormed : (compactLayers layers).WellFormed where
  shared := (compactLayers_sharedRoot ok).2
  overlays s := (compactLayers_overlayRoot ok s).2
  registry := compactLayers_registry_ascending ok
  indexed := compactLayers_indexed ok

/-- A root the whole stack fixes keeps the scopes recorded at it: it is no key
of any layer, so its entries stay in order. -/
theorem mem_compactLayers_scopesForRoot {r : NodeId} {s : ScopeId}
    (fixed : stackShared layers.layers r = r) (recorded : Recorded layers.layers r s) :
    s ∈ (compactLayers layers).scopesForRoot r := by
  obtain ⟨layer, layerMember, listed⟩ := recorded
  rw [(ok.wellFormed layer layerMember).mem_scopesForRoot] at listed
  rw [(compactLayers_wellFormed ok).mem_scopesForRoot, mem_compactLayers_registryIter]
  refine ⟨layer, layerMember, r, listed, (if_neg fun moved => ?_).symm⟩
  obtain ⟨newer, newerMember, key⟩ := mem_flatMap.mp moved
  have newerListed := mem_of_mem_tail newerMember
  have movedThere := ((ok.wellFormed newer newerListed).shared.tableRoot_ne_iff r).mpr key
  exact movedThere ((stackRoot_eq_self_iff ok.shared.rootMap r).mp fixed _
    (mem_map.mpr ⟨newer, newerListed, rfl⟩))

end Registry

end Blaze
