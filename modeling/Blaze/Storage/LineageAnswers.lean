import Blaze.Storage.Lineage

/-!
# What a lineage answers

Every forest with a past answers from the events it has seen.  A worker may
therefore start again from the files that encode a forest, over them or with them
in memory, and a range of layers may be replaced by its merge, without a change
to any lookup.  The last section is the invariant behind all of this, as it reads
on the structures of a single forest.
-/

namespace Blaze

open RootMap PairTable LayeredBase

variable {base merged slice : LayeredBase} {x : NodeId} {older newer : List PuffinBase}
  {seen : Set EdgeEvent} {s : ScopeId}

/-- A scoped event in one layer, and in a second layer a global event that absorbs
the root the scope is registered at. -/
def foldedTwice : DiskForest :=
  ⟨foldedDelta ((foldedDelta ((ScopedForest.new.tracking false).apply
    ⟨4, 2, .scopedTo [7], 0, none⟩)).apply ⟨2, 1, .global, 0, none⟩), []⟩

theorem lineage_foldedTwice :
    Lineage [⟨4, 2, .scopedTo [7], 0, none⟩, ⟨2, 1, .global, 0, none⟩] foldedTwice :=
  .step (.step (.step (.step (.fresh false) (.apply _ _)) (.foldDelta _)) (.apply _ _))
    (.foldDelta _)

/-! ## Starting again -/

/-- A forest, the forest opened over the files that encode it, and the forest that
loads these files into memory give the same answers, now and after any further
events. -/
theorem coldStarts_agree {events : List EdgeEvent} {d : DiskForest}
    (lineage : Lineage events d) {files : List PuffinBase} (encodes : d.forest.Encodes files) :
    ∃ base, LayeredBase.fromLayers files = .ok base ∧
      ∀ (memberIndex : Bool) (later : List EdgeEvent) (s : ScopeId) (x : NodeId),
        ((later.foldl ScopedForest.apply
            (hydrateAll (ScopedForest.new.tracking memberIndex) files)).scopeRoot s x).2 =
          ((later.foldl ScopedForest.apply d.forest).scopeRoot s x).2 ∧
        ((later.foldl ScopedForest.apply
            ((ScopedForest.withBase base).tracking memberIndex)).scopeRoot s x).2 =
          ((later.foldl ScopedForest.apply d.forest).scopeRoot s x).2 := by
  have layered : LayeredBase.fromLayers files = .ok ⟨files, encodes.ne_nil⟩ := by
    rw [LayeredBase.fromLayers, dif_neg encodes.ne_nil]
  refine ⟨_, layered, fun memberIndex later s x => ?_⟩
  have original := lineage.settled.onDisk.represents
  have inMemory := (Lineage.hydrated lineage encodes memberIndex).settled.onDisk.represents
  have onFiles := (Lineage.opened lineage encodes layered memberIndex).settled.onDisk.represents
  have after := ScopedForest.represents_foldl_apply later _ original
  constructor
  · exact (ScopedForest.represents_foldl_apply later _ inMemory).scopeRoot_eq after s x
  · exact (ScopedForest.represents_foldl_apply later _ onFiles).scopeRoot_eq after s x

/-- The files of two folds: node 4 is seen below node 1, whichever way the worker
starts. -/
theorem coldStarts_agree_foldedTwice :
    ∃ files base, foldedTwice.forest.Encodes files ∧ files.length = 2 ∧
      LayeredBase.fromLayers files = .ok base ∧
      ((hydrateAll (ScopedForest.new.tracking true) files).scopeRoot 7 4).2 =
        (foldedTwice.forest.scopeRoot 7 4).2 ∧
      (((ScopedForest.withBase base).tracking true).scopeRoot 7 4).2 =
        (foldedTwice.forest.scopeRoot 7 4).2 := by
  have encodes : foldedTwice.forest.Encodes _ := .layers rfl
  obtain ⟨base, layered, agree⟩ := coldStarts_agree lineage_foldedTwice encodes
  exact ⟨_, base, encodes, by decide +kernel, layered, agree true [] 7 4⟩

/-! ## Forests that have seen the same -/

section Seen

variable {events events' : List EdgeEvent} {d d' : DiskForest} {s s' : ScopeId}

/-- What one forest connects is connected in another that has seen at least its events,
in the same scope or, if it is global, in every scope. -/
theorem reachable_of_more (more : ∀ event ∈ events, event ∈ events')
    (wider : s = globalScope ∨ s = s') {u v : NodeId}
    (joined : (visibleGraph {event | event ∈ events} s).Reachable u v) :
    (visibleGraph {event | event ∈ events'} s').Reachable u v := by
  apply (joined.mono (visibleGraph_mono more s)).mono
  rcases wider with rfl | rfl
  · exact visibleGraph_global_le _ s'
  · exact le_rfl

/-- Whatever orders, folds, merges and cold starts two forests went through: the one that
has seen at least the events of the other connects all the other does and answers with
roots that are not larger; and if both have seen the same events, they agree. -/
theorem answers_grow (lineage : Lineage events d) (lineage' : Lineage events' d')
    (more : ∀ event ∈ events, event ∈ events') (wider : s = globalScope ∨ s = s') :
    (∀ u v, (d.forest.connected s u v).2 = true → (d'.forest.connected s' u v).2 = true) ∧
      (∀ x, (d'.forest.scopeRoot s' x).2 ≤ (d.forest.scopeRoot s x).2) ∧
      ((∀ event ∈ events', event ∈ events) → s = s' →
        ∀ x, (d'.forest.scopeRoot s' x).2 = (d.forest.scopeRoot s x).2) := by
  have represents := lineage.settled.onDisk.represents
  have represents' := lineage'.settled.onDisk.represents
  have grow : ∀ x, (d'.forest.scopeRoot s' x).2 ≤ (d.forest.scopeRoot s x).2 := fun x =>
    (represents'.isLeast_scopeRoot s' x).2
      (reachable_of_more more wider (represents.isLeast_scopeRoot s x).1)
  refine ⟨fun u v connected => ?_, grow, fun back same x => (grow x).antisymm ?_⟩
  · rw [represents'.connected_iff]
    exact reachable_of_more more wider ((represents.connected_iff s u v).mp connected)
  · exact (represents.isLeast_scopeRoot s x).2
      (reachable_of_more back (.inr same.symm) (represents'.isLeast_scopeRoot s' x).1)

/-- The events of the folded forest in the other order, kept in memory. -/
theorem answers_grow_foldedTwice :
    ∃ d, Lineage [⟨2, 1, .global, 0, none⟩, ⟨4, 2, .scopedTo [7], 0, none⟩] d ∧
      ∀ x, (d.forest.scopeRoot 7 x).2 = (foldedTwice.forest.scopeRoot 7 x).2 :=
  have swapped : Lineage [⟨2, 1, .global, 0, none⟩, ⟨4, 2, .scopedTo [7], 0, none⟩] _ :=
    .step (.step (.fresh true) (.apply _ _)) (.apply _ _)
  ⟨_, swapped, (answers_grow lineage_foldedTwice swapped (by decide) (.inr rfl)).2.2 (by decide)
    rfl⟩

end Seen

/-! ## Replacing a range of layers -/

/-- A walk ends at the same point in two bases when both find the same parent. -/
theorem resolve_congr {probe : PuffinBase → NodeId → Option NodeId}
    (same : (merged.resolve probe x).getD x = (base.resolve probe x).getD x) :
    merged.resolve probe x = base.resolve probe x := by
  rw [resolve_getD, resolve_getD] at same
  rw [LayeredBase.resolve, LayeredBase.resolve, same]

/-- The layers of a base hold the routing state of some events by themselves. -/
theorem Lineage.routes_layers {events : List EdgeEvent} {d : DiskForest}
    (lineage : Lineage events d) (current : d.forest.tier.base = some base) :
    ∃ seen, Routes base.layers seen := by
  have below : base.layers <+: baseLayers d.forest.tier.base := by
    rw [current]
    exact List.prefix_rfl
  obtain ⟨seen, whole, layersEq, opened⟩ := lineage.lower below base.nonempty
  have onDisk := opened.settled.onDisk
  rw [ScopedForest.onDisk_iff_routes rfl] at onDisk
  rw [← layersEq]
  exact ⟨_, onDisk⟩

/-- The layers up to the end of a slice are a stack of their own. -/
theorem Lineage.stack_slice {events : List EdgeEvent} {d : DiskForest}
    (lineage : Lineage events d) (current : d.forest.tier.base = some base) {start stop : Nat}
    (range : base.slice start stop = .ok slice) :
    StackOk (base.layers.take start ++ slice.layers) ∧
      StackIndexed (base.layers.take start ++ slice.layers) := by
  obtain ⟨seen, routes⟩ := lineage.routes_layers current
  have ok := routes.stack
  have indexed := lineage.settled.indexed
  rw [current] at indexed
  change StackIndexed base.layers at indexed
  rw [DiskForest.layers_of_slice range] at ok indexed
  exact ⟨StackOk.of_append_left ok, indexed.of_append_left⟩

/-- A scope that a merge records at a root of the whole stack was recorded there
before: the scope's overlay touches a point of that root, and every such root is
recorded. -/
theorem recorded_of_merge (routes : Routes (older ++ slice.layers ++ newer) seen)
    (indexed : Indexed older (compactLayers slice))
    (fixed : stackShared (older ++ slice.layers ++ newer) x = x)
    (listed : s ∈ (compactLayers slice).scopesForRoot x) :
    Recorded (older ++ slice.layers ++ newer) x s := by
  obtain ⟨sliceOk, splicedOk⟩ := StackOk.splice routes.stack
  rw [(compactLayers_wellFormed sliceOk).mem_scopesForRoot, indexed.entries] at listed
  obtain ⟨y, touched, resolved⟩ := listed
  have touchedAll : Touches (stackOverlay (older ++ slice.layers ++ newer) s) y := by
    rw [← stackOverlay_splice sliceOk]
    apply ((splicedOk.overlay s).touches_stackRoot_iff y).mpr
    exact ⟨_, List.mem_map.mpr ⟨compactLayers slice, by simp, rfl⟩, touched⟩
  have ends : stackShared (older ++ slice.layers ++ newer) y = x := by
    have newerFixed : stackShared newer x = x :=
      stackRoot_fixed_of_subset routes.stack.shared.rootMap
        (List.map_subset _ (List.subset_append_right _ newer)) fixed
    rw [← stackShared_splice sliceOk, List.append_cons, stackShared_append, resolved, newerFixed]
  have recorded := routes.view.registered s y touchedAll
  change Recorded _ (stackShared _ y) s at recorded
  rwa [ends] at recorded

/-- What a base with a merged range answers. -/
theorem lookups_of_merge (routes : Routes base.layers seen) (indexed : StackIndexed base.layers)
    (layers : base.layers = older ++ slice.layers ++ newer)
    (mergedLayers : merged.layers = older ++ compactLayers slice :: newer) :
    (∀ x, merged.sharedParent x = base.sharedParent x) ∧
      (∀ s x, merged.overlayParent s x = base.overlayParent s x) ∧
      ∀ x, base.sharedParent x = none →
        ∀ s, s ∈ merged.scopesForRoot x ↔ s ∈ base.scopesForRoot x := by
  have ok : StackOk (baseLayers (some base)) := routes.stack
  have sharedEq := congrFun (ScopedForest.sharedRoot_spliced ok layers mergedLayers)
  have overlayEq := fun s => congrFun (ScopedForest.overlayRoot_spliced ok layers mergedLayers s)
  refine ⟨fun x => resolve_congr (sharedEq x), fun s x => resolve_congr (overlayEq s x), ?_⟩
  intro x rootless s
  have fixed : stackShared base.layers x = x := by
    rw [← sharedParent_getD routes.stack, rootless]
    rfl
  rw [LayeredBase.mem_scopesForRoot, LayeredBase.mem_scopesForRoot, mergedLayers]
  rw [layers] at fixed routes indexed ⊢
  constructor
  · rintro ⟨layer, member, listed⟩
    rcases List.mem_append.mp member with below | atOrAbove
    · exact ⟨layer, by simp [below], listed⟩
    · rcases List.mem_cons.mp atOrAbove with rfl | above
      · apply recorded_of_merge routes _ fixed listed
        exact indexed_merge (StackOk.of_append_left routes.stack) indexed.of_append_left
      · exact ⟨layer, by simp [above], listed⟩
  · exact recorded_splice routes.stack fixed

/-- Replacing any range of layers by its merge changes no parent, and no set of
scopes at a node that has no shared parent. -/
theorem spliced_lookups_eq {events : List EdgeEvent} {d : DiskForest}
    (lineage : Lineage events d) {base : LayeredBase} (current : d.forest.tier.base = some base)
    {start stop : Nat} (nonempty : start < stop) (inside : stop ≤ base.layers.length) :
    ∃ slice merged, base.slice start stop = .ok slice ∧
      base.spliced start stop (compactLayers slice) = .ok merged ∧
      (∀ x, merged.sharedParent x = base.sharedParent x) ∧
      (∀ s x, merged.overlayParent s x = base.overlayParent s x) ∧
      ∀ x, base.sharedParent x = none →
        ∀ s, s ∈ merged.scopesForRoot x ↔ s ∈ base.scopesForRoot x := by
  obtain ⟨slice, range⟩ := DiskForest.exists_slice nonempty inside
  have spliced : base.spliced start stop (compactLayers slice) =
      .ok ⟨base.layers.take start ++ compactLayers slice :: base.layers.drop stop, by simp⟩ := by
    rw [LayeredBase.spliced, if_pos ⟨nonempty, inside⟩, LayeredBase.fromLayers, dif_neg]
  obtain ⟨layers, mergedLayers⟩ := DiskForest.layers_of_range range spliced
  obtain ⟨seen, routes⟩ := lineage.routes_layers current
  have indexed := lineage.settled.indexed
  rw [current] at indexed
  exact ⟨_, _, range, spliced, lookups_of_merge routes indexed layers mergedLayers⟩

/-- Both layers of the two folds, merged into one. -/
theorem spliced_lookups_eq_foldedTwice :
    ∃ base slice merged, foldedTwice.forest.tier.base = some base ∧
      base.slice 0 2 = .ok slice ∧ base.spliced 0 2 (compactLayers slice) = .ok merged ∧
      (∀ x, merged.sharedParent x = base.sharedParent x) ∧
      (∀ s x, merged.overlayParent s x = base.overlayParent s x) ∧
      ∀ x, base.sharedParent x = none →
        ∀ s, s ∈ merged.scopesForRoot x ↔ s ∈ base.scopesForRoot x := by
  have two : (0 : Nat) < 2 := by decide
  obtain ⟨slice, merged, rest⟩ :=
    spliced_lookups_eq lineage_foldedTwice rfl two (by decide +kernel)
  exact ⟨_, slice, merged, rfl, rest⟩

/-! ## Keys of a stack -/

theorem resolve_ne_some_self (base : LayeredBase) (probe : PuffinBase → NodeId → Option NodeId)
    (x : NodeId) : base.resolve probe x ≠ some x := by
  unfold LayeredBase.resolve
  dsimp only
  split
  · next moved =>
      intro same
      exact moved (Option.some.inj same)
  · simp

/-- In the layers of every base, for the shared tier and for each overlay, no node is a
key of two layers, parents are smaller, and a value is no key of its own layer or of an
older one.  A lookup, which never goes back to an older layer, so ends where following
the parents of all layers ends. -/
theorem layers_keysApart {events : List EdgeEvent} {d : DiskForest}
    (lineage : Lineage events d) {base : LayeredBase} (current : d.forest.tier.base = some base) :
    (KeysApart (base.layers.map PuffinBase.shared) ∧
      ∀ x, Follows (base.layers.map PuffinBase.shared) x (base.sharedParent x)) ∧
    ∀ s, KeysApart (base.layers.map fun layer => layer.overlay s) ∧
      ∀ x, Follows (base.layers.map fun layer => layer.overlay s) x (base.overlayParent s x) := by
  obtain ⟨seen, routes⟩ := lineage.routes_layers current
  have ok := routes.stack
  have tier : ∀ (table : PuffinBase → List (NodeId × NodeId)),
      (∀ layer ∈ base.layers, Resolved (table layer)) →
      Layered (base.layers.map fun layer => tableRoot (table layer)) →
      KeysApart (base.layers.map table) ∧
        ∀ x, Follows (base.layers.map table) x
          (base.resolve (fun layer node => (table layer).lookup node) x) := by
    intro table resolved layered
    have tables : ∀ pairs ∈ base.layers.map table, Resolved pairs := by
      intro pairs member
      obtain ⟨layer, inside, rfl⟩ := List.mem_map.mp member
      exact resolved layer inside
    have stacked : Layered ((base.layers.map table).map tableRoot) := by
      rw [List.map_map]
      exact layered
    refine ⟨keysApart_of_layered tables stacked, fun x => ?_⟩
    apply follows_of_layered tables stacked
    · rw [resolve_getD, resolveLoop_eq table resolved, List.map_map]
      rfl
    · exact resolve_ne_some_self base _ x
  constructor
  · exact tier PuffinBase.shared (fun layer member => (ok.wellFormed layer member).shared) ok.shared
  · intro s
    exact tier (fun layer => layer.overlay s)
      (fun layer member => (ok.wellFormed layer member).overlays s) (ok.overlay s)

/-- The two layers of the two folds. -/
theorem layers_keysApart_foldedTwice :
    ∃ base, foldedTwice.forest.tier.base = some base ∧ base.layers.length = 2 ∧
      (KeysApart (base.layers.map PuffinBase.shared) ∧
        ∀ x, Follows (base.layers.map PuffinBase.shared) x (base.sharedParent x)) ∧
      ∀ s, KeysApart (base.layers.map fun layer => layer.overlay s) ∧
        ∀ x, Follows (base.layers.map fun layer => layer.overlay s) x
          (base.overlayParent s x) :=
  ⟨_, rfl, by decide +kernel, layers_keysApart lineage_foldedTwice rfl⟩

/-! ## Overlay points -/

/-- The node occurs in the overlay of a scope, as a key or as a value: in the
memtable's parent links or in a table of some layer. -/
def ScopedForest.Occurs (f : ScopedForest LayeredBase) (s : ScopeId) (e : NodeId) : Prop :=
  (∃ p, (f.tier.mem.overlay s).parentOf e = some p) ∨
    (∃ k, (f.tier.mem.overlay s).parentOf k = some e) ∨
    ScopedForest.Mentions (baseLayers f.tier.base) s e

/-- A parent link touches its two ends. -/
theorem Dsu.touches_of_parentOf {d : Dsu} (decreasing : d.Decreasing) {k p : NodeId}
    (stored : d.parentOf k = some p) : Touches d.root k ∧ Touches d.root p := by
  have touches := (isRootMap decreasing).touches_of_lt (decreasing stored)
    (root_of_parent decreasing stored)
  exact ⟨touches_of_moved touches.1, touches.2⟩

/-- A table touches the ends of its pairs. -/
theorem touches_of_mem_endpoints {pairs : List (NodeId × NodeId)} (resolved : Resolved pairs)
    {m : NodeId} (member : m ∈ ScopedForest.endpoints pairs) : Touches (tableRoot pairs) m := by
  obtain ⟨pair, inTable, here⟩ := List.mem_flatMap.mp member
  have stored := tableRoot_of_mem resolved.nodup (y := pair.2) inTable
  have moved : tableRoot pairs pair.1 ≠ pair.1 := by
    rw [stored]
    exact (resolved.smaller pair inTable).ne
  rcases List.mem_cons.mp here with rfl | value
  · exact touches_of_moved moved
  · rw [List.mem_singleton.mp value, ← stored]
    exact touches_root_of_moved moved

/-- A node that occurs in an overlay is touched by the composed overlay. -/
theorem ScopedForest.OnDisk.touches {f : ScopedForest LayeredBase} {events : Set EdgeEvent}
    (onDisk : f.OnDisk events) {e : NodeId} (occurs : f.Occurs s e) :
    Touches (f.tier.view.overlay s) e := by
  have wellFormed := onDisk.represents.wellFormed
  have layered : Layered ((baseLayers f.tier.base).map (fun layer => layer.overlayRoot s) ++
      [f.tier.mem.overlayRoot s]) := by
    apply (onDisk.stack.overlay s).push (wellFormed.overlayRoot s)
    have atop := wellFormed.overlayOver s
    rw [overlayRoot_base f.tier.base onDisk.stack] at atop
    exact atop
  have composed : f.tier.view.overlay s = stackRoot ((baseLayers f.tier.base).map
      (fun layer => layer.overlayRoot s) ++ [f.tier.mem.overlayRoot s]) := by
    funext x
    rw [stackRoot_append]
    change f.tier.mem.overlayRoot s (RoutingBase.overlayRoot f.tier.base s x) = _
    rw [overlayRoot_base f.tier.base onDisk.stack]
    rfl
  rw [composed, layered.touches_stackRoot_iff]
  rcases occurs with ⟨p, stored⟩ | ⟨k, stored⟩ | ⟨layer, member, here⟩
  · exact ⟨_, List.mem_append_right _ List.mem_cons_self,
      (Dsu.touches_of_parentOf (wellFormed.overlays s) stored).1⟩
  · exact ⟨_, List.mem_append_right _ List.mem_cons_self,
      (Dsu.touches_of_parentOf (wellFormed.overlays s) stored).2⟩
  · exact ⟨_, List.mem_append_left _ (List.mem_map.mpr ⟨layer, member, rfl⟩),
      touches_of_mem_endpoints ((onDisk.stack.wellFormed layer member).overlays s) here⟩

/-- In every forest with a past, a node that occurs in a scope's overlay lies in
one overlay class with its shared root, and the scope is registered at that
root, in the memtable or by the base. -/
theorem overlay_point_registered {events : List EdgeEvent} {d : DiskForest}
    (lineage : Lineage events d) {s : ScopeId} {e : NodeId} (occurs : d.forest.Occurs s e)
    (compress : Bool) :
    let root := (d.forest.tier.sharedRoot e compress).2
    (d.forest.tier.overlayRoot s root compress).2 =
        (d.forest.tier.overlayRoot s e compress).2 ∧
      (s ∈ d.forest.tier.mem.scopesAt root ∨
        s ∈ RoutingBase.recordedScopes d.forest.tier.base root) := by
  intro root
  have onDisk := lineage.settled.onDisk
  have wellFormed := onDisk.represents.wellFormed
  have touched := onDisk.touches occurs
  have rootEq : root = d.forest.tier.view.shared e :=
    (Tier.sharedRoot_spec wellFormed e compress).1
  rw [(Tier.overlayRoot_spec wellFormed s root compress).1,
    (Tier.overlayRoot_spec wellFormed s e compress).1, rootEq]
  exact ⟨onDisk.represents.view.coherent s e touched,
    onDisk.represents.view.registered s e touched⟩

/-- Node 2 is a value of scope 7's overlay in the first layer; its shared root is
node 1, where the second layer registers the scope. -/
theorem overlay_point_registered_foldedTwice :
    let root := (foldedTwice.forest.tier.sharedRoot 2 false).2
    (foldedTwice.forest.tier.overlayRoot 7 root false).2 =
        (foldedTwice.forest.tier.overlayRoot 7 2 false).2 ∧
      (7 ∈ foldedTwice.forest.tier.mem.scopesAt root ∨
        7 ∈ RoutingBase.recordedScopes foldedTwice.forest.tier.base root) := by
  have occurs : foldedTwice.forest.Occurs 7 2 := by
    refine Or.inr (Or.inr ?_)
    have listed : (baseLayers foldedTwice.forest.tier.base).any
        (fun file => 2 ∈ ScopedForest.endpoints (file.overlay 7)) = true := by decide +kernel
    simpa [ScopedForest.Mentions] using listed
  exact overlay_point_registered lineage_foldedTwice occurs false

end Blaze
