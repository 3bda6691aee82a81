import Blaze.Core.Connectivity
import Blaze.Storage.Compact

/-!
# The disk-backed forest

A forest over a layered base folds its memtable into a new layer, rewrites the
whole stack, or swaps in a stack in which a range of layers has been merged.
None of this changes an answer: the forest keeps representing the events it has
applied.
-/

namespace Blaze

open List RootMap PairTable LayeredBase ScopedView

variable {newer older : List PuffinBase} {slice base : LayeredBase} {s : ScopeId}
  {f : ScopedForest LayeredBase} {events : Set EdgeEvent} {t : Tier LayeredBase}
  {layer : PuffinBase} {r : NodeId}

/-- The layers of an optional base. -/
def baseLayers (base : Option LayeredBase) : List PuffinBase :=
  (base.map LayeredBase.layers).getD []

/-- A folded file on top of the current base, or as the first base. -/
def layerOver : Option LayeredBase → PuffinBase → LayeredBase
  | none, delta => LayeredBase.new delta
  | some base, delta => base.pushed delta

@[simp]
theorem layers_layerOver (base : Option LayeredBase) (delta : PuffinBase) :
    (layerOver base delta).layers = baseLayers base ++ [delta] := by
  cases base <;> rfl

theorem stackOk_nil : StackOk [] :=
  ⟨by simp, layered_nil, fun _ => layered_nil⟩

theorem lawful_base (base : Option LayeredBase) (ok : StackOk (baseLayers base)) :
    RoutingBase.Lawful base := by
  cases base with
  | none => exact RoutingBase.lawful_none
  | some base => exact lawful ok

theorem sharedRoot_base (base : Option LayeredBase) (ok : StackOk (baseLayers base)) :
    RoutingBase.sharedRoot base = stackShared (baseLayers base) := by
  cases base with
  | none => rfl
  | some base =>
    funext x
    exact sharedParent_getD ok x

theorem overlayRoot_base (base : Option LayeredBase) (ok : StackOk (baseLayers base))
    (s : ScopeId) : RoutingBase.overlayRoot base s = stackOverlay (baseLayers base) s := by
  cases base with
  | none => rfl
  | some base =>
    funext x
    exact overlayParent_getD ok s x

theorem mem_recordedScopes_base (base : Option LayeredBase) (r : NodeId) (s : ScopeId) :
    s ∈ RoutingBase.recordedScopes base r ↔ Recorded (baseLayers base) r s := by
  cases base with
  | none => simp [RoutingBase.recordedScopes, Recorded, baseLayers]
  | some base => exact mem_scopesForRoot base r s

/-- A stack with one more layer, given what the layer's tables encode. -/
theorem StackOk.push {layers : List PuffinBase} (ok : StackOk layers)
    (wellFormed : layer.WellFormed) (shared : Over layer.sharedRoot (stackShared layers))
    (overlay : ∀ s, Over (layer.overlayRoot s) (stackOverlay layers s)) :
    StackOk (layers ++ [layer]) where
  wellFormed := by
    intro l member
    rcases mem_append.mp member with member | member
    · exact ok.wellFormed l member
    · rw [mem_singleton.mp member]
      exact wellFormed
  shared := by
    rw [map_append]
    exact ok.shared.push wellFormed.shared.isRootMap shared
  overlay s := by
    rw [map_append]
    exact (ok.overlay s).push (wellFormed.overlays s).isRootMap (overlay s)

/-- What a stack says about its newest layer. -/
theorem StackOk.pop {layers : List PuffinBase} (ok : StackOk (layers ++ [layer])) :
    layer.WellFormed ∧ Over layer.sharedRoot (stackShared layers) ∧
      ∀ s, Over (layer.overlayRoot s) (stackOverlay layers s) := by
  have shared := ok.shared
  have overlay := ok.overlay
  simp only [map_append] at shared overlay
  exact ⟨ok.wellFormed layer (by simp), shared.over_newest, fun s => (overlay s).over_newest⟩

theorem StackOk.of_append_left {layers : List PuffinBase} (ok : StackOk (layers ++ newer)) :
    StackOk layers := by
  have shared := ok.shared
  have overlay := ok.overlay
  simp only [map_append] at shared overlay
  exact ⟨fun layer member => ok.wellFormed layer (mem_append_left newer member),
    shared.of_append_left, fun s => (overlay s).of_append_left⟩

/-- Replacing a range of layers by its merge keeps the stack well formed. -/
theorem StackOk.splice (ok : StackOk (older ++ slice.layers ++ newer)) :
    StackOk slice.layers ∧ StackOk (older ++ compactLayers slice :: newer) := by
  have shared := ok.shared
  have overlay := ok.overlay
  simp only [map_append] at shared overlay
  have sliceOk : StackOk slice.layers :=
    ⟨fun layer member => ok.wellFormed layer (by simp [member]),
      shared.of_append_left.of_append_right, fun s => (overlay s).of_append_left.of_append_right⟩
  refine ⟨sliceOk, fun layer member => ?_, ?_, fun s => ?_⟩
  · rcases mem_append.mp member with member | member
    · exact ok.wellFormed layer (by simp [member])
    · rcases mem_cons.mp member with rfl | member
      · exact compactLayers_wellFormed sliceOk
      · exact ok.wellFormed layer (by simp [member])
  · rw [map_append, map_cons, (compactLayers_sharedRoot sliceOk).1]
    exact shared.splice
  · rw [map_append, map_cons, (compactLayers_overlayRoot sliceOk s).1]
    exact (overlay s).splice

theorem stackShared_splice (ok : StackOk slice.layers) :
    stackShared (older ++ compactLayers slice :: newer) =
      stackShared (older ++ slice.layers ++ newer) := by
  funext x
  simp only [stackShared, map_append, map_cons, (compactLayers_sharedRoot ok).1]
  exact stackRoot_splice _ _ _ x

theorem stackOverlay_splice (ok : StackOk slice.layers) (s : ScopeId) :
    stackOverlay (older ++ compactLayers slice :: newer) s =
      stackOverlay (older ++ slice.layers ++ newer) s := by
  funext x
  simp only [stackOverlay, map_append, map_cons, (compactLayers_overlayRoot ok s).1]
  exact stackRoot_splice _ _ _ x

/-- Merging a range loses no registration at a root the stack fixes. -/
theorem recorded_splice (ok : StackOk (older ++ slice.layers ++ newer))
    (fixed : stackShared (older ++ slice.layers ++ newer) r = r)
    (recorded : Recorded (older ++ slice.layers ++ newer) r s) :
    Recorded (older ++ compactLayers slice :: newer) r s := by
  obtain ⟨layer, member, listed⟩ := recorded
  simp only [mem_append, or_assoc] at member
  rcases member with inOlder | inSlice | inNewer
  · exact ⟨layer, by simp [inOlder], listed⟩
  · have sliceOk := (StackOk.splice ok).1
    have sliceFixed : stackShared slice.layers r = r := by
      apply stackRoot_fixed_of_subset ok.shared.rootMap _ fixed
      apply map_subset
      exact subset_append_of_subset_left _ (subset_append_right _ _)
    exact ⟨compactLayers slice, by simp,
      mem_compactLayers_scopesForRoot sliceOk sliceFixed ⟨layer, inSlice, listed⟩⟩
  · exact ⟨layer, by simp [inNewer], listed⟩

/-! ## Stacks on their own -/

/-- What a stack of files answers when nothing lies over it. -/
def stackView (layers : List PuffinBase) : View NodeId ScopeId where
  shared := stackShared layers
  overlay := stackOverlay layers
  registered := Recorded layers
  kept := Recorded layers

/-- The files hold the routing state of the events. -/
structure Routes (layers : List PuffinBase) (events : Set EdgeEvent) : Prop where
  stack : StackOk layers
  view : ScopedView.Represents (stackView layers) (visibleGraph events globalScope)
    (visibleGraph events)

section Fresh

variable (base : Option LayeredBase) (memberIndex : Bool)

theorem Memtable.overlayRoot_new (s : ScopeId) (x : NodeId) :
    (Memtable.new memberIndex).overlayRoot s x = x := by
  rw [Memtable.overlayRoot, Memtable.overlay_new, Dsu.root_trackingMembers]

/-- An empty memtable lies over any stack. -/
theorem Tier.wellFormed_fresh (ok : StackOk (baseLayers base)) :
    (Tier.mk base (Memtable.new memberIndex)).WellFormed where
  base := lawful_base base ok
  global := Dsu.decreasing_trackingMembers _
  overlays s := by
    rw [Memtable.overlay_new]
    exact Dsu.decreasing_trackingMembers _
  sharedOver x moved := absurd (Dsu.root_trackingMembers _ x) moved
  overlayOver s x moved := absurd (Memtable.overlayRoot_new memberIndex s x) moved

/-- With an empty memtable the stack answers alone. -/
theorem Tier.view_fresh (ok : StackOk (baseLayers base)) :
    (Tier.mk base (Memtable.new memberIndex)).view = stackView (baseLayers base) := by
  have recorded := mem_recordedScopes_base base
  have unregistered : ∀ (r : NodeId) (s : ScopeId),
      s ∉ (Memtable.new memberIndex).scopesAt r := by
    intro r s
    simp [Memtable.scopesAt, Memtable.new]
  unfold Tier.view stackView
  congr 1
  · funext x
    rw [sharedRoot_base base ok]
    exact Dsu.root_trackingMembers _ _
  · funext s x
    rw [Memtable.overlayRoot_new, overlayRoot_base base ok]
  · funext r s
    simp only [unregistered, false_or, recorded]
  · funext r s
    simp only [Memtable.overlayRoot_new, ne_eq, not_true_eq_false, false_and, exists_false,
      or_false, recorded]

end Fresh

namespace ScopedForest

/-- The forest represents the events, and its base is a well-formed stack. -/
structure OnDisk (f : ScopedForest LayeredBase) (events : Set EdgeEvent) : Prop where
  represents : f.Represents events
  stack : StackOk (baseLayers f.tier.base)

/-- Compressing paths changes no answer. -/
theorem OnDisk.of_compressed {g : ScopedForest LayeredBase} (onDisk : f.OnDisk events)
    (compressed : Tier.CompressedTo f.tier g.tier) :
    g.OnDisk events where
  represents := onDisk.represents.of_compressed compressed
  stack := by
    rw [compressed.base_eq]
    exact onDisk.stack

theorem OnDisk.setTier (onDisk : f.OnDisk events) {tier : Tier LayeredBase}
    (compressed : Tier.CompressedTo f.tier tier) : (f.setTier tier).OnDisk events :=
  onDisk.of_compressed compressed

theorem OnDisk.apply (onDisk : f.OnDisk events) (event : EdgeEvent) :
    (f.apply event).OnDisk (insert event events) where
  represents := represents_apply f onDisk.represents event
  stack := by
    rw [apply_base f onDisk.represents event]
    exact onDisk.stack

/-- A forest whose memtable is empty is as good as its files. -/
theorem onDisk_iff_routes {base : Option LayeredBase} {memberIndex : Bool}
    (fresh : f.tier = ⟨base, Memtable.new memberIndex⟩) :
    f.OnDisk events ↔ Routes (baseLayers base) events := by
  constructor
  · rintro ⟨⟨-, view⟩, stack⟩
    rw [fresh] at stack view
    rw [Tier.view_fresh base memberIndex stack] at view
    exact ⟨stack, view⟩
  · rintro ⟨stack, view⟩
    rw [← Tier.view_fresh base memberIndex stack] at view
    refine ⟨⟨?_, ?_⟩, ?_⟩
    · rw [fresh]
      exact Tier.wellFormed_fresh base memberIndex stack
    · rw [fresh]
      exact view
    · rw [fresh]
      exact stack

theorem onDisk_adopt_iff : (f.adopt base).OnDisk events ↔ Routes base.layers events := by
  rw [onDisk_iff_routes rfl]
  rfl

/-- Adopting a base that answers as the composed view does, and that has recorded
every touched point's root, keeps the forest correct. -/
theorem onDisk_adopt (represents : f.Represents events) (ok : StackOk base.layers)
    (shared : stackShared base.layers = f.tier.view.shared)
    (overlay : ∀ s, stackOverlay base.layers s = f.tier.view.overlay s)
    (recorded : ∀ s x, Touches (f.tier.view.overlay s) x →
      Recorded base.layers (f.tier.view.shared x) s) : (f.adopt base).OnDisk events := by
  apply onDisk_adopt_iff.mpr
  exact ⟨ok, represents.view.rerecord shared (funext overlay) recorded recorded⟩

/-! ## Folding the memtable into a delta layer -/

/-- The file a delta fold writes. -/
def deltaBase (t : Tier LayeredBase) : PuffinBase :=
  writtenBase t.view t.mem.global.keys t.mem.overlays.keys t.overlayKeys

section Delta

variable (wellFormed : t.WellFormed)

include wellFormed

theorem deltaBase_wellFormed : (deltaBase t).WellFormed :=
  writtenBase_wellFormed t.view t.mem.global.keys t.mem.overlays.keys t.overlayKeys
    wellFormed.sharedView wellFormed.overlayView (Dsu.keys_ascending _)
    (Tier.overlayKeys_ascending t)

/-- The shared table of a delta is the memtable's root map: the base fixes every
memtable key. -/
theorem deltaBase_sharedRoot : (deltaBase t).sharedRoot = t.mem.global.root := by
  have onKeys : ∀ k ∈ t.mem.global.keys, t.view.shared k = t.mem.global.root k := by
    intro k key
    have moved := (Dsu.mem_keys_iff wellFormed.global k).mp key
    change t.mem.global.root (RoutingBase.sharedRoot t.base k) = _
    rw [(wellFormed.sharedOver k moved).1]
  have tableEq : (deltaBase t).shared = tableOf t.mem.global.keys t.mem.global.root := by
    rw [deltaBase, writtenBase_shared, sharedTable, filter_eq_self.mpr]
    · exact map_congr_left fun k key => by rw [onKeys k key]
    · intro k key
      rw [onKeys k key]
      simpa using (Dsu.mem_keys_iff wellFormed.global k).mp key
  rw [PuffinBase.sharedRoot, tableEq]
  exact tableRoot_tableOf ((Dsu.keys_ascending _).imp fun order => order.ne)
    fun x moved => (Dsu.mem_keys_iff wellFormed.global x).mpr moved

theorem overlay_eq_of_key {k : NodeId} (moved : t.mem.overlayRoot s k ≠ k) :
    t.view.overlay s k = t.mem.overlayRoot s k := by
  change t.mem.overlayRoot s (RoutingBase.overlayRoot t.base s k) = _
  rw [(wellFormed.overlayOver s k moved).1]

theorem deltaBase_overlayRoot (s : ScopeId) :
    (deltaBase t).overlayRoot s = t.mem.overlayRoot s := by
  have keyIff := Tier.mem_overlayKeys_iff wellFormed s
  have onKeys : ∀ k ∈ t.overlayKeys s, t.view.overlay s k = t.mem.overlayRoot s k :=
    fun k key => overlay_eq_of_key wellFormed ((keyIff k).mp key)
  have tableEq : (deltaBase t).overlay s = tableOf (t.overlayKeys s) (t.mem.overlayRoot s) := by
    rw [deltaBase, writtenBase_overlay]
    split
    · rw [overlayTable, filter_eq_self.mpr]
      · exact map_congr_left fun k key => by rw [onKeys k key]
      · intro k key
        rw [onKeys k key]
        simpa using (keyIff k).mp key
    · next unlisted =>
        have noKeys : t.overlayKeys s = [] := by
          rw [eq_nil_iff_forall_not_mem]
          exact fun k key => unlisted (Tier.mem_scopeIds ((keyIff k).mp key))
        simp [noKeys, tableOf]
  rw [PuffinBase.overlayRoot, tableEq]
  exact tableRoot_tableOf ((Tier.overlayKeys_ascending t s).imp fun order => order.ne)
    fun x moved => (keyIff x).mpr moved

/-- What the next fold keeps is what the layers below and the delta record. -/
theorem recorded_deltaBase (kept : t.view.kept r s) :
    Recorded (baseLayers t.base ++ [deltaBase t]) r s := by
  rcases kept with inBase | ⟨k, moved, resolved⟩
  · obtain ⟨layer, member, listed⟩ := (mem_recordedScopes_base t.base r s).mp inBase
    exact ⟨layer, mem_append_left _ member, listed⟩
  · refine ⟨deltaBase t, by simp, ?_⟩
    have composed := overlay_eq_of_key wellFormed moved
    rw [deltaBase, mem_writtenBase_scopesForRoot _ _ _ _ (deltaBase_wellFormed wellFormed)]
    refine ⟨Tier.mem_scopeIds moved, k, (Tier.mem_overlayKeys_iff wellFormed s k).mpr moved, ?_, ?_⟩
    · rw [composed]
      exact moved
    · rw [composed]
      exact resolved

end Delta

theorem stackOk_delta {t : Tier LayeredBase} (wellFormed : t.WellFormed)
    (ok : StackOk (baseLayers t.base)) : StackOk (baseLayers t.base ++ [deltaBase t]) := by
  refine StackOk.push ok (deltaBase_wellFormed wellFormed) ?_ fun s => ?_
  · rw [deltaBase_sharedRoot wellFormed, ← sharedRoot_base t.base ok]
    exact wellFormed.sharedOver
  · rw [deltaBase_overlayRoot wellFormed, ← overlayRoot_base t.base ok]
    exact wellFormed.overlayOver s

section DeltaStack

variable (wellFormed : t.WellFormed) (ok : StackOk (baseLayers t.base))

include wellFormed ok

/-- With the delta on top the stack answers as the tier did. -/
theorem stackShared_delta : stackShared (baseLayers t.base ++ [deltaBase t]) = t.view.shared := by
  funext x
  change _ = t.mem.global.root (RoutingBase.sharedRoot t.base x)
  rw [sharedRoot_base t.base ok, ← deltaBase_sharedRoot wellFormed]
  simp [stackShared, stackRoot_append]

theorem stackOverlay_delta (s : ScopeId) :
    stackOverlay (baseLayers t.base ++ [deltaBase t]) s = t.view.overlay s := by
  funext x
  change _ = t.mem.overlayRoot s (RoutingBase.overlayRoot t.base s x)
  rw [overlayRoot_base t.base ok, ← deltaBase_overlayRoot wellFormed]
  simp [stackOverlay, stackRoot_append]

end DeltaStack

theorem onDisk_delta (onDisk : f.OnDisk events) :
    (f.adopt (layerOver f.tier.base (deltaBase f.tier))).OnDisk events := by
  have wellFormed := onDisk.represents.wellFormed
  have ok := stackOk_delta wellFormed onDisk.stack
  refine onDisk_adopt onDisk.represents (by rw [layers_layerOver]; exact ok) ?_ (fun s => ?_)
    fun s x touched => ?_
  · rw [layers_layerOver]
    exact stackShared_delta wellFormed onDisk.stack
  · rw [layers_layerOver]
    exact stackOverlay_delta wellFormed onDisk.stack s
  · rw [layers_layerOver]
    exact recorded_deltaBase wellFormed (onDisk.represents.view.kept s x touched)

/-! ## Rewriting the whole state -/

/-- The file a full compaction writes. -/
def fullBase (t : Tier LayeredBase) : PuffinBase :=
  writtenBase t.view t.compactSharedKeys t.compactScopes t.compactKeys

section Full

variable (wellFormed : t.WellFormed)

include wellFormed

theorem fullBase_wellFormed : (fullBase t).WellFormed :=
  writtenBase_wellFormed t.view t.compactSharedKeys t.compactScopes t.compactKeys
    wellFormed.sharedView wellFormed.overlayView (Tier.compactSharedKeys_ascending wellFormed)
    (Tier.compactKeys_ascending wellFormed)

theorem fullBase_sharedRoot : (fullBase t).sharedRoot = t.view.shared := by
  have keyIff := Tier.mem_compactSharedKeys wellFormed
  have tableEq : (fullBase t).shared = tableOf t.compactSharedKeys t.view.shared := by
    rw [fullBase, writtenBase_shared, sharedTable, filter_eq_self.mpr]
    intro k key
    simpa using (keyIff k).mp key
  rw [PuffinBase.sharedRoot, tableEq]
  exact tableRoot_tableOf
    ((Tier.compactSharedKeys_ascending wellFormed).imp fun order => order.ne)
    fun x moved => (keyIff x).mpr moved

theorem fullBase_overlayRoot (s : ScopeId) : (fullBase t).overlayRoot s = t.view.overlay s := by
  have keyIff := Tier.mem_compactKeys wellFormed s
  have tableEq : (fullBase t).overlay s = tableOf (t.compactKeys s) (t.view.overlay s) := by
    rw [fullBase, writtenBase_overlay]
    split
    · rw [overlayTable, filter_eq_self.mpr]
      intro k key
      simpa using (keyIff k).mp key
    · next unlisted =>
        have noKeys : t.compactKeys s = [] := by
          rw [eq_nil_iff_forall_not_mem]
          exact fun k key => unlisted (Tier.mem_compactScopes wellFormed ((keyIff k).mp key))
        simp [noKeys, tableOf]
  rw [PuffinBase.overlayRoot, tableEq]
  exact tableRoot_tableOf ((Tier.compactKeys_ascending wellFormed s).imp fun order => order.ne)
    fun x moved => (keyIff x).mpr moved

/-- Every touched overlay point is a key or the root of one, so its live shared
root is recorded. -/
theorem recorded_fullBase {x : NodeId} (touched : Touches (t.view.overlay s) x) :
    s ∈ (fullBase t).scopesForRoot (t.view.shared x) := by
  have keyIff := Tier.mem_compactKeys wellFormed s
  rw [fullBase, mem_writtenBase_scopesForRoot _ _ _ _ (fullBase_wellFormed wellFormed)]
  rcases touched with moved | ⟨y, different, hit⟩
  · exact ⟨Tier.mem_compactScopes wellFormed moved, x, (keyIff x).mpr moved, moved, Or.inl rfl⟩
  · have moved : t.view.overlay s y ≠ y := by
      rw [hit]
      exact Ne.symm different
    exact ⟨Tier.mem_compactScopes wellFormed moved, y, (keyIff y).mpr moved, moved,
      Or.inr (by rw [hit])⟩

theorem stackOk_full : StackOk [fullBase t] := by
  have file := fullBase_wellFormed wellFormed
  exact ⟨by simpa using file, layered_singleton file.shared.isRootMap,
    fun s => layered_singleton (file.overlays s).isRootMap⟩

end Full

theorem onDisk_full (represents : f.Represents events) :
    (f.adopt (LayeredBase.new (fullBase f.tier))).OnDisk events := by
  have wellFormed := represents.wellFormed
  refine onDisk_adopt represents (stackOk_full wellFormed) ?_ (fun s => ?_) fun s x touched => ?_
  · exact fullBase_sharedRoot wellFormed
  · exact fullBase_overlayRoot wellFormed s
  · exact ⟨fullBase f.tier, by simp [LayeredBase.new], recorded_fullBase wellFormed touched⟩

/-! ## Swapping in a merged range -/

section Splice

variable {current : Option LayeredBase} (ok : StackOk (baseLayers current))
  (layers : baseLayers current = older ++ slice.layers ++ newer)
  (merged : base.layers = older ++ compactLayers slice :: newer)

include ok layers merged

theorem stackOk_spliced : StackOk slice.layers ∧ StackOk base.layers := by
  rw [layers] at ok
  rw [merged]
  exact StackOk.splice ok

/-- A base with a merged range resolves as the base it was made from. -/
theorem sharedRoot_spliced :
    RoutingBase.sharedRoot (some base) = RoutingBase.sharedRoot current := by
  obtain ⟨sliceOk, splicedOk⟩ := stackOk_spliced ok layers merged
  rw [sharedRoot_base (some base) splicedOk, sharedRoot_base current ok, layers]
  change stackShared base.layers = _
  rw [merged, stackShared_splice sliceOk]

theorem overlayRoot_spliced (s : ScopeId) :
    RoutingBase.overlayRoot (some base) s = RoutingBase.overlayRoot current s := by
  obtain ⟨sliceOk, splicedOk⟩ := stackOk_spliced ok layers merged
  rw [overlayRoot_base (some base) splicedOk s, overlayRoot_base current ok s, layers]
  change stackOverlay base.layers s = _
  rw [merged, stackOverlay_splice sliceOk]

end Splice

theorem onDisk_swapBase (onDisk : f.OnDisk events)
    (current : baseLayers f.tier.base = older ++ slice.layers ++ newer)
    (merged : base.layers = older ++ compactLayers slice :: newer) :
    (f.swapBase base).OnDisk events := by
  have wellFormed := onDisk.represents.wellFormed
  have ok' := (stackOk_spliced onDisk.stack current merged).2
  have sharedEq := sharedRoot_spliced onDisk.stack current merged
  have overlayEq := overlayRoot_spliced onDisk.stack current merged
  have recorded : ∀ r s, RoutingBase.sharedRoot f.tier.base r = r →
      s ∈ RoutingBase.recordedScopes f.tier.base r →
      s ∈ RoutingBase.recordedScopes (some base) r := by
    intro r s fixed listed
    rw [mem_recordedScopes_base, current] at listed
    rw [sharedRoot_base f.tier.base onDisk.stack, current] at fixed
    rw [mem_recordedScopes_base]
    change Recorded base.layers r s
    rw [merged]
    apply recorded_splice _ fixed listed
    rw [← current]
    exact onDisk.stack
  have liveFixed : ∀ x, RoutingBase.sharedRoot f.tier.base (f.tier.view.shared x) =
      f.tier.view.shared x :=
    wellFormed.sharedOver.fixed wellFormed.base.shared
  refine ⟨⟨⟨lawful ok', wellFormed.global, wellFormed.overlays, ?_, fun s => ?_⟩, ?_⟩, ok'⟩
  · change Over f.tier.mem.global.root (RoutingBase.sharedRoot (some base))
    rw [sharedEq]
    exact wellFormed.sharedOver
  · change Over (f.tier.mem.overlayRoot s) (RoutingBase.overlayRoot (some base) s)
    rw [overlayEq]
    exact wellFormed.overlayOver s
  · have sharedView : (f.swapBase base).tier.view.shared = f.tier.view.shared := by
      funext x
      change f.tier.mem.global.root (RoutingBase.sharedRoot (some base) x) = _
      rw [sharedEq]
      rfl
    refine onDisk.represents.view.rerecord sharedView ?_ (fun s x touched => ?_)
      fun s x touched => ?_
    · funext s x
      change f.tier.mem.overlayRoot s (RoutingBase.overlayRoot (some base) s x) = _
      rw [overlayEq]
      rfl
    · rcases onDisk.represents.view.registered s x touched with inMem | inBase
      · exact Or.inl inMem
      · exact Or.inr (recorded _ s (liveFixed x) inBase)
    · rcases onDisk.represents.view.kept s x touched with inBase | ⟨k, moved, resolved⟩
      · exact Or.inl (recorded _ s (liveFixed x) inBase)
      · refine Or.inr ⟨k, moved, ?_⟩
        change f.tier.mem.global.root (RoutingBase.sharedRoot (some base) k) = _ ∨
          f.tier.mem.global.root (RoutingBase.sharedRoot (some base)
            (f.tier.mem.overlayRoot s k)) = _
        rw [sharedEq]
        exact resolved

end ScopedForest

/-- Replacing a range of files by its merge keeps what the stack holds. -/
theorem Routes.splice (routes : Routes (older ++ slice.layers ++ newer) events) :
    Routes (older ++ compactLayers slice :: newer) events := by
  have nonempty : older ++ slice.layers ++ newer ≠ [] := by simp [slice.nonempty]
  have nonempty' : older ++ compactLayers slice :: newer ≠ [] := by simp
  have onDisk : (ScopedForest.withBase (⟨_, nonempty⟩ : LayeredBase)).OnDisk events := by
    rw [ScopedForest.onDisk_iff_routes rfl]
    exact routes
  have swapped : ((ScopedForest.withBase (⟨_, nonempty⟩ : LayeredBase)).swapBase
      ⟨_, nonempty'⟩).OnDisk events := ScopedForest.onDisk_swapBase onDisk rfl rfl
  rw [ScopedForest.onDisk_iff_routes rfl] at swapped
  exact swapped

end Blaze
