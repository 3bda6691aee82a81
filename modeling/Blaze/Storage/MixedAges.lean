import Blaze.Storage.LineageAnswers

/-!
# Stacks with files of an older format

A file from before the registry has the tables of a current one and no registry
run.  When it is opened, a fallback registry is built from its overlays, and the
lookups are served from that.  Compaction reads the stored runs only.
-/

namespace Blaze

open RootMap PairTable LayeredBase

variable {file layer : PuffinBase} {s : ScopeId} {files layers : List PuffinBase}

/-- The file as it was written before there were registries. -/
def PuffinBase.withoutRegistry (file : PuffinBase) : PuffinBase :=
  { file with registry := none }

/-- The layer is the file as it is written now, with a registry run in either
encoding, or the file without its registry. -/
def Aged (file layer : PuffinBase) : Prop :=
  layer = file ∨ layer = file.withoutRegistry

/-- The scopes recorded at any root are found in the compacted file at the root
that the whole stack gives it. -/
def KeepsScopes (stack : LayeredBase) : Prop :=
  ∀ r s, s ∈ stack.scopesForRoot r →
    s ∈ (compactLayers stack).scopesForRoot ((stack.sharedParent r).getD r)

/-- No layer stores a registry entry, so that the compacted file has to use its own
fallback, or all the overlay points of the layers without a registry are recorded
at their live root by an entry that is stored. -/
def StoredEntriesSuffice (stack : LayeredBase) : Prop :=
  (∀ layer ∈ stack.layers, layer.registryIter = []) ∨
    ∀ layer ∈ stack.layers, layer.registry = none →
      ∀ s ∈ layer.scopes, ∀ x ∈ ScopedForest.endpoints (layer.overlay s),
        ∃ other ∈ stack.layers, ∃ entry ∈ other.registryIter, (ofLex entry).2 = s ∧
          (stack.sharedParent (ofLex entry).1).getD (ofLex entry).1 = (stack.sharedParent x).getD x

instance (stack : LayeredBase) : Decidable (StoredEntriesSuffice stack) := by
  unfold StoredEntriesSuffice
  infer_instance

/-! ## The fallback registry -/

/-- The points a table touches are the ends of its pairs. -/
theorem touches_iff_mem_endpoints {pairs : List (NodeId × NodeId)} (resolved : Resolved pairs)
    (x : NodeId) : Touches (tableRoot pairs) x ↔ x ∈ ScopedForest.endpoints pairs := by
  constructor
  · intro touched
    have here : ∃ y, Touches (tableRoot pairs) y ∧ y = x := ⟨x, touched, rfl⟩
    obtain ⟨k, moved, ends⟩ := exists_touches_iff.mp here
    obtain ⟨pair, member, rfl⟩ := List.mem_map.mp ((resolved.tableRoot_ne_iff k).mp moved)
    rw [tableRoot_of_mem resolved.nodup (y := pair.2) member] at ends
    apply List.mem_flatMap.mpr
    refine ⟨pair, member, ?_⟩
    rcases ends with rfl | rfl
    · simp
    · simp
  · exact touches_of_mem_endpoints resolved

/-- A scope with pairs has a table. -/
theorem mem_scopes_of_mem_endpoints {x : NodeId}
    (inTable : x ∈ ScopedForest.endpoints (file.overlay s)) : s ∈ file.scopes := by
  rw [PuffinBase.scopes, Std.TreeMap.mem_keys]
  by_contra absent
  rw [PuffinBase.overlay, Std.TreeMap.getD_eq_fallback absent] at inTable
  cases inTable

/-- The fallback of a file lists a scope at the roots, as the file has them, of the
points that its overlay for the scope touches. -/
theorem mem_fallbackScopes (resolved : Resolved (file.overlay s)) (r : NodeId) :
    s ∈ file.fallbackScopes r ↔ ∃ x, Touches (file.overlayRoot s) x ∧ file.sharedRoot x = r := by
  have scan : s ∈ file.fallbackScopes r ↔ s ∈ file.overlays.keys ∧
      ∃ x ∈ ScopedForest.endpoints (file.overlay s), file.sharedRoot x = r := by
    simp only [PuffinBase.fallbackScopes, List.mem_filter, List.any_eq_true, decide_eq_true_eq,
      ScopedForest.endpoints, List.mem_flatMap]
    apply and_congr_right
    intro _
    constructor
    · rintro ⟨pair, member, x, here, ends⟩
      exact ⟨x, ⟨pair, member, here⟩, ends⟩
    · rintro ⟨x, ⟨pair, member, here⟩, ends⟩
      exact ⟨pair, member, x, here, ends⟩
  rw [scan]
  simp only [PuffinBase.overlayRoot, touches_iff_mem_endpoints resolved]
  constructor
  · rintro ⟨-, found⟩
    exact found
  · rintro ⟨x, inTable, ends⟩
    exact ⟨mem_scopes_of_mem_endpoints inTable, x, inTable, ends⟩

/-- Whatever its age, a layer lists the scopes that the current format stores.  The
layers below fix what an overlay touches, so the roots that the file has by itself
are the right ones. -/
theorem Aged.mem_scopesForRoot {older : List PuffinBase} (aged : Aged file layer)
    (wellFormed : file.WellFormed) (indexed : Indexed older file) (r : NodeId) (s : ScopeId) :
    s ∈ layer.scopesForRoot r ↔ registryEntry r s ∈ file.registryIter := by
  rcases aged with rfl | rfl
  · exact wellFormed.mem_scopesForRoot r s
  · change s ∈ file.fallbackScopes r ↔ _
    rw [mem_fallbackScopes (wellFormed.overlays s), indexed.entries]
    apply exists_congr
    intro x
    apply and_congr_right
    intro touched
    rw [stackShared_append, (indexed.live s).fixes_touched touched]
    rfl

/-! ## Tables do not age -/

theorem exists_of_forall₂ {α β : Type*} {R : α → β → Prop} {as : List α} {bs : List β}
    (related : List.Forall₂ R as bs) {b : β} (member : b ∈ bs) : ∃ a ∈ as, R a b := by
  induction related with
  | nil => cases member
  | cons first rest ih =>
    rcases List.mem_cons.mp member with rfl | later
    · exact ⟨_, List.mem_cons_self, first⟩
    · obtain ⟨a, inTail, holds⟩ := ih later
      exact ⟨a, List.mem_cons_of_mem _ inTail, holds⟩

/-- What does not read the registry is the same for every layer. -/
theorem map_aged {γ : Type*} {f : PuffinBase → γ}
    (tables : ∀ file : PuffinBase, f file.withoutRegistry = f file)
    (aged : List.Forall₂ Aged files layers) : layers.map f = files.map f := by
  induction aged with
  | nil => rfl
  | cons first rest ih =>
    rw [List.map_cons, List.map_cons, ih]
    rcases first with rfl | rfl
    · rfl
    · rw [tables]

theorem resolveLoop_aged {probe : PuffinBase → NodeId → Option NodeId}
    (tables : ∀ file : PuffinBase, probe file.withoutRegistry = probe file)
    (aged : List.Forall₂ Aged files layers) (x : NodeId) :
    resolveLoop probe layers x = resolveLoop probe files x := by
  induction aged generalizing x with
  | nil => rfl
  | @cons file layer files layers first rest ih =>
    have here : probe layer x = probe file x := by
      rcases first with rfl | rfl
      · rfl
      · rw [tables]
    simp only [resolveLoop, here, ih]

section Tables

variable {current stack : LayeredBase} (aged : List.Forall₂ Aged current.layers stack.layers)

include aged

theorem resolve_aged (probe : PuffinBase → NodeId → Option NodeId)
    (tables : ∀ file : PuffinBase, probe file.withoutRegistry = probe file) :
    stack.resolve probe = current.resolve probe := by
  funext x
  simp only [resolve, resolveLoop_aged tables aged]

theorem sharedParent_aged : stack.sharedParent = current.sharedParent :=
  resolve_aged aged PuffinBase.sharedParent fun _ => rfl

theorem overlayParent_aged (s : ScopeId) : stack.overlayParent s = current.overlayParent s :=
  resolve_aged aged (fun layer => layer.overlayParent s) fun _ => rfl

theorem movedRoots_aged : movedRoots stack = movedRoots current := by
  have keys : stack.layers.map (fun layer => layer.shared.map Prod.fst) =
      current.layers.map (fun layer => layer.shared.map Prod.fst) :=
    map_aged (fun _ => rfl) aged
  simp only [movedRoots, List.flatMap_def, List.map_tail, keys]

theorem compactedRoot_aged : compactedRoot stack = compactedRoot current := by
  funext r
  rw [compactedRoot, compactedRoot, movedRoots_aged aged, sharedParent_aged aged]

/-- The tables of the compacted file do not depend on the age of the layers. -/
theorem compactLayers_aged :
    (compactLayers stack).shared = (compactLayers current).shared ∧
      (compactLayers stack).overlays = (compactLayers current).overlays := by
  constructor
  · change stack.sharedPairs = current.sharedPairs
    rw [sharedPairs, sharedPairs, map_aged (fun _ => rfl) aged, sharedParent_aged aged]
  · have pairs : stack.overlayPairs = current.overlayPairs := by
      funext s
      rw [overlayPairs, overlayPairs, map_aged (fun _ => rfl) aged, overlayParent_aged aged]
    have scopes : stack.scopes = current.scopes := by
      rw [LayeredBase.scopes, LayeredBase.scopes, List.flatMap_def,
        map_aged (fun _ => rfl) aged, ← List.flatMap_def]
    have merged : mergeOverlays stack = mergeOverlays current := by
      rw [mergeOverlays_eq, mergeOverlays_eq, pairs, scopes]
    change (mergeOverlays stack).foldl _ ∅ = (mergeOverlays current).foldl _ ∅
    rw [merged]

end Tables

/-! ## What compaction keeps -/

section Compaction

variable {current stack : LayeredBase} (ok : StackOk current.layers)
  (indexed : StackIndexed current.layers) (aged : List.Forall₂ Aged current.layers stack.layers)

include ok indexed

theorem compactedRoot_of_entry (member : file ∈ current.layers) {r : NodeId}
    (stored : registryEntry r s ∈ file.registryIter) :
    compactedRoot current r = stackShared current.layers r := by
  have ok' : StackOk ([] ++ current.layers) := ok
  exact compactedRoot_of_stored ok' indexed member stored

/-- The live roots of what a file stores are the live roots of what its overlays
touch. -/
theorem exists_entry_iff (member : file ∈ current.layers) (root : NodeId) (s : ScopeId) :
    (∃ r, registryEntry r s ∈ file.registryIter ∧ stackShared current.layers r = root) ↔
      ∃ x ∈ ScopedForest.endpoints (file.overlay s), stackShared current.layers x = root := by
  have ok' : StackOk ([] ++ current.layers) := ok
  have compacted := exists_compacted_iff ok' indexed member root s
  rw [PuffinBase.overlayRoot] at compacted
  simp only [touches_iff_mem_endpoints ((ok.wellFormed file member).overlays s)] at compacted
  refine Iff.trans ?_ compacted
  apply exists_congr
  intro r
  apply and_congr_right
  intro stored
  rw [compactedRoot_of_entry ok indexed member stored]
  exact eq_comm

include aged

/-- The stack lists what the current format stores, whatever the age of its layers. -/
theorem mem_scopesForRoot_aged (r : NodeId) (s : ScopeId) :
    s ∈ stack.scopesForRoot r ↔
      ∃ file ∈ current.layers, registryEntry r s ∈ file.registryIter := by
  have serves : ∀ {file layer}, file ∈ current.layers → Aged file layer →
      (s ∈ layer.scopesForRoot r ↔ registryEntry r s ∈ file.registryIter) := by
    intro file layer member same
    obtain ⟨below, above, split⟩ := List.append_of_mem member
    exact same.mem_scopesForRoot (ok.wellFormed file member) (indexed below file above split) r s
  rw [LayeredBase.mem_scopesForRoot]
  constructor
  · rintro ⟨layer, member, listed⟩
    obtain ⟨file, inFiles, same⟩ := exists_of_forall₂ aged member
    exact ⟨file, inFiles, (serves inFiles same).mp listed⟩
  · rintro ⟨file, member, stored⟩
    obtain ⟨layer, inStack, same⟩ := exists_of_forall₂ aged.flip member
    exact ⟨layer, inStack, (serves member same).mpr stored⟩

/-- Without a stored entry the compacted file has no registry, and its fallback lists
the points of all overlays. -/
theorem keepsScopes_of_unstored (unstored : ∀ layer ∈ stack.layers, layer.registryIter = []) :
    KeepsScopes stack := by
  have nothing : registryEntries stack = [] := by
    rw [List.eq_nil_iff_forall_not_mem]
    intro entry stored
    obtain ⟨layer, member, here⟩ := (mem_registryEntries stack entry).mp stored
    rw [unstored layer member] at here
    cases here
  have noRegistry : (compactLayers stack).registry = none := by
    simp [compactLayers, compactRegistry, corrections, nothing, weave, SortDedup.dedup,
      SortDedup.sortDedup]
  obtain ⟨shared, overlays⟩ := compactLayers_aged aged
  intro r s listed
  obtain ⟨file, member, stored⟩ := (mem_scopesForRoot_aged ok indexed aged r s).mp listed
  obtain ⟨x, inTable, ends⟩ := (exists_entry_iff ok indexed member _ s).mp ⟨r, stored, rfl⟩
  have listedByFallback :
      s ∈ (compactLayers current).fallbackScopes (stackShared current.layers r) := by
    rw [mem_fallbackScopes (compactLayers_overlayRoot ok s).2, (compactLayers_overlayRoot ok s).1,
      (compactLayers_sharedRoot ok).1]
    refine ⟨x, ((ok.overlay s).touches_stackRoot_iff x).mpr ?_, ends⟩
    exact ⟨_, List.mem_map.mpr ⟨file, member, rfl⟩,
      touches_of_mem_endpoints ((ok.wellFormed file member).overlays s) inTable⟩
  rw [PuffinBase.scopesForRoot, noRegistry, sharedParent_aged aged, sharedParent_getD ok]
  unfold PuffinBase.fallbackScopes PuffinBase.overlay PuffinBase.sharedParent at listedByFallback ⊢
  rw [shared, overlays]
  exact listedByFallback

/-- A stored entry gives the compacted file a registry, which then holds the stored
entries alone. -/
theorem mem_compactLayers_of_stored (member : layer ∈ stack.layers)
    (stored : layer.registryIter ≠ []) (root : NodeId) (s : ScopeId) :
    s ∈ (compactLayers stack).scopesForRoot root ↔
      ∃ other ∈ stack.layers, ∃ r, registryEntry r s ∈ other.registryIter ∧
        stackShared current.layers r = root := by
  obtain ⟨entry, inLayer⟩ := List.exists_mem_of_ne_nil _ stored
  have nonempty : (compactLayers stack).registryIter ≠ [] := by
    have kept := (mem_compactLayers_registryIter stack _ (ofLex entry).2).mpr
      ⟨layer, member, (ofLex entry).1, inLayer, rfl⟩
    exact List.ne_nil_of_mem kept
  have fromRegistry : s ∈ (compactLayers stack).scopesForRoot root ↔
      registryEntry root s ∈ (compactLayers stack).registryIter := by
    cases registry : (compactLayers stack).registry with
    | none =>
      rw [PuffinBase.registryIter, registry] at nonempty
      exact absurd rfl nonempty
    | some entries =>
      rw [PuffinBase.mem_scopesForRoot_of_registry registry, PuffinBase.registryIter, registry]
      rfl
  have resolved : ∀ other ∈ stack.layers, ∀ r, registryEntry r s ∈ other.registryIter →
      compactedRoot stack r = stackShared current.layers r := by
    intro other inStack r here
    obtain ⟨file, inFiles, same⟩ := exists_of_forall₂ aged inStack
    rw [compactedRoot_aged aged]
    rcases same with rfl | rfl
    · exact compactedRoot_of_entry ok indexed inFiles here
    · cases here
  rw [fromRegistry, mem_compactLayers_registryIter]
  constructor
  · rintro ⟨other, inStack, r, here, rfl⟩
    exact ⟨other, inStack, r, here, (resolved other inStack r here).symm⟩
  · rintro ⟨other, inStack, r, here, rfl⟩
    exact ⟨other, inStack, r, here, (resolved other inStack r here).symm⟩

/-- Compaction keeps every scope exactly when the stored entries are enough. -/
theorem keepsScopes_iff_of_stack : KeepsScopes stack ↔ StoredEntriesSuffice stack := by
  by_cases unstored : ∀ layer ∈ stack.layers, layer.registryIter = []
  · exact iff_of_true (keepsScopes_of_unstored ok indexed aged unstored) (Or.inl unstored)
  have someStored := unstored
  push Not at someStored
  obtain ⟨layer, member, stored⟩ := someStored
  have keeps := mem_compactLayers_of_stored ok indexed aged member stored
  unfold KeepsScopes StoredEntriesSuffice
  simp only [sharedParent_aged aged, sharedParent_getD ok, keeps, unstored, false_or,
    mem_scopesForRoot_aged ok indexed aged]
  constructor
  · intro all lacking inStack without s _ x inTable
    obtain ⟨file, inFiles, same⟩ := exists_of_forall₂ aged inStack
    have overlayEq : lacking.overlay s = file.overlay s := by
      rcases same with rfl | rfl
      · rfl
      · rfl
    rw [overlayEq] at inTable
    obtain ⟨r, here, ends⟩ := (exists_entry_iff ok indexed inFiles _ s).mpr ⟨x, inTable, rfl⟩
    obtain ⟨other, otherIn, r', stored', ends'⟩ := all r s ⟨file, inFiles, here⟩
    exact ⟨other, otherIn, registryEntry r' s, stored', rfl, ends'.trans ends⟩
  · rintro covered r s ⟨file, inFiles, here⟩
    obtain ⟨other, inStack, same⟩ := exists_of_forall₂ aged.flip inFiles
    rcases same with rfl | rfl
    · exact ⟨other, inStack, r, here, rfl⟩
    · obtain ⟨x, inTable, ends⟩ := (exists_entry_iff ok indexed inFiles _ s).mp ⟨r, here, rfl⟩
      obtain ⟨other, otherIn, entry, stored', rfl, ends'⟩ :=
        covered _ inStack rfl s (mem_scopes_of_mem_endpoints inTable) x inTable
      exact ⟨other, otherIn, (ofLex entry).1, stored', ends'.trans ends⟩

end Compaction

/-- For the files that encode a forest with a past, any of them without its
registry: compaction keeps every scope exactly when no layer stores an entry or the
stored entries cover the layers that have none. -/
theorem keepsScopes_iff {events : List EdgeEvent} {d : DiskForest} (lineage : Lineage events d)
    {files : List PuffinBase} (encodes : d.forest.Encodes files) {stack : LayeredBase}
    (aged : List.Forall₂ Aged files stack.layers) :
    KeepsScopes stack ↔ StoredEntriesSuffice stack := by
  have settled := lineage.settled
  have indexed := Lineage.indexed_of_encodes settled encodes
  have ok := (encodes.routes settled.onDisk).stack
  obtain ⟨current, rfl⟩ : ∃ current : LayeredBase, current.layers = files :=
    ⟨⟨files, encodes.ne_nil⟩, rfl⟩
  exact keepsScopes_iff_of_stack ok indexed aged

/-! ## Two stacks whose first file is old -/

/-- The stack with the registry of its first file taken away. -/
def LayeredBase.firstAged (base : LayeredBase) : LayeredBase :=
  ⟨base.layers.modifyHead PuffinBase.withoutRegistry, by simpa using base.nonempty⟩

theorem aged_firstAged (base : LayeredBase) :
    List.Forall₂ Aged base.layers base.firstAged.layers := by
  change List.Forall₂ Aged base.layers (base.layers.modifyHead PuffinBase.withoutRegistry)
  cases base.layers with
  | nil => exact .nil
  | cons file rest => exact .cons (Or.inr rfl) (List.forall₂_same.mpr fun _ _ => Or.inl rfl)

/-- Two tenants, one layer each. -/
def foldedTenants : DiskForest :=
  ⟨foldedDelta ((foldedDelta ((ScopedForest.new.tracking false).apply
    ⟨4, 2, .scopedTo [7], 0, none⟩)).apply ⟨6, 5, .scopedTo [8], 0, none⟩), []⟩

theorem lineage_foldedTenants :
    Lineage [⟨4, 2, .scopedTo [7], 0, none⟩, ⟨6, 5, .scopedTo [8], 0, none⟩] foldedTenants :=
  .step (.step (.step (.step (.fresh false) (.apply _ _)) (.foldDelta _)) (.apply _ _))
    (.foldDelta _)

/-- One tenant, recorded again by the second layer where the first has it. -/
def foldedAgain : DiskForest :=
  ⟨foldedDelta ((((foldedDelta ((ScopedForest.new.tracking false).apply
    ⟨4, 2, .scopedTo [7], 0, none⟩)).apply ⟨4, 2, .global, 0, none⟩).apply
      ⟨2, 1, .scopedTo [7], 0, none⟩)), []⟩

theorem lineage_foldedAgain :
    Lineage [⟨4, 2, .scopedTo [7], 0, none⟩, ⟨4, 2, .global, 0, none⟩,
      ⟨2, 1, .scopedTo [7], 0, none⟩] foldedAgain :=
  .step (.step (.step (.step (.step (.fresh false) (.apply _ _)) (.foldDelta _)) (.apply _ _))
    (.apply _ _)) (.foldDelta _)

/-- Only the second layer has a registry, and it is enough. -/
theorem keepsScopes_iff_foldedAgain :
    ∃ base : LayeredBase, foldedAgain.forest.Encodes base.layers ∧
      (base.firstAged.layers.map fun layer => layer.registryIter.length) = [0, 2] ∧
      KeepsScopes base.firstAged := by
  refine ⟨_, .layers rfl, ?_, ?_⟩
  · decide +kernel
  · apply (keepsScopes_iff lineage_foldedAgain (.layers rfl) (aged_firstAged _)).mpr
    decide +kernel

/-- The first tenant is recorded at node 2, by the fallback of a file without a
registry, and compaction drops it there. -/
theorem registration_dropped :
    ∃ (events : List EdgeEvent) (d : DiskForest) (files : List PuffinBase) (stack : LayeredBase),
      Lineage events d ∧ d.forest.Encodes files ∧ List.Forall₂ Aged files stack.layers ∧
      7 ∈ stack.scopesForRoot 2 ∧ stack.sharedParent 2 = none ∧
      7 ∉ (compactLayers stack).scopesForRoot 2 := by
  refine ⟨_, foldedTenants, _, LayeredBase.firstAged _, lineage_foldedTenants, .layers rfl,
    aged_firstAged _, ?_, ?_, ?_⟩
  · decide +kernel
  · decide +kernel
  · decide +kernel

end Blaze
