import Blaze.Core.Scoped
import Blaze.Lib.KeyedMap
import Blaze.Lib.ScopedView

/-!
# What a tier answers

The root maps a tier composes from base and memtable, as a scoped view.  Lookups
answer from these maps and change nothing but compressed paths, so everything
later is stated about the view.  The last part records what the streaming
functions emit, again in terms of the view.
-/

namespace Blaze

open RootMap

variable {mem : Memtable} {s scope : ScopeId} {d : Dsu}

universe u

namespace Memtable

/-- The root of a node in the memtable's overlay of one scope. -/
def overlayRoot (mem : Memtable) (s : ScopeId) (x : NodeId) : NodeId :=
  (mem.overlay s).root x

@[simp]
theorem overlay_new (memberIndex : Bool) (s : ScopeId) :
    (new memberIndex).overlay s = Dsu.trackingMembers memberIndex := by
  simp [overlay, new]

theorem overlay_of_none (absent : mem.overlays[s]? = none) :
    mem.overlay s = Dsu.trackingMembers mem.memberIndex := by
  simp [overlay, Std.TreeMap.getD_eq_getD_getElem?, absent]

theorem overlay_of_some (present : mem.overlays[s]? = some d) : mem.overlay s = d := by
  simp [overlay, Std.TreeMap.getD_eq_getD_getElem?, present]

@[simp]
theorem overlay_setGlobal (mem : Memtable) (d : Dsu) (s : ScopeId) :
    (mem.setGlobal d).overlay s = mem.overlay s :=
  rfl

@[simp]
theorem overlay_register (mem : Memtable) (root : NodeId) (scopes : List ScopeId) (s : ScopeId) :
    (mem.register root scopes).overlay s = mem.overlay s :=
  rfl

theorem overlay_setOverlay (mem : Memtable) (scope s : ScopeId) (d : Dsu) :
    (mem.setOverlay scope d).overlay s = if scope = s then d else mem.overlay s := by
  simp [overlay, setOverlay, Std.TreeMap.getD_insert]

@[simp]
theorem overlay_setOverlay_self (mem : Memtable) (scope : ScopeId) (d : Dsu) :
    (mem.setOverlay scope d).overlay scope = d := by
  simp [overlay_setOverlay]

theorem overlay_setOverlay_of_ne (mem : Memtable) (other : s ≠ scope) (d : Dsu) :
    (mem.setOverlay scope d).overlay s = mem.overlay s := by
  simp [overlay_setOverlay, Ne.symm other]

theorem mem_overlays_setOverlay (mem : Memtable) (scope s : ScopeId) (d : Dsu) :
    s ∈ (mem.setOverlay scope d).overlays ↔ s = scope ∨ s ∈ mem.overlays := by
  simp [setOverlay, Std.TreeMap.mem_insert, @eq_comm _ s scope]

theorem mem_scopesAt_register (mem : Memtable) (root r : NodeId) (scopes : List ScopeId)
    (s : ScopeId) :
    s ∈ (mem.register root scopes).scopesAt r ↔ s ∈ mem.scopesAt r ∨ r = root ∧ s ∈ scopes := by
  by_cases same : root = r
  · subst same
    simp [scopesAt, register, Std.TreeSet.mem_insertMany_list]
  · simp [scopesAt, register, Std.TreeMap.getD_insert, same, Ne.symm same]

theorem mem_scopesAt_unregister (mem : Memtable) (root r : NodeId) (s : ScopeId) :
    s ∈ (mem.unregister root).scopesAt r ↔ r ≠ root ∧ s ∈ mem.scopesAt r := by
  by_cases same : root = r
  · subst same
    simp [scopesAt, unregister]
  · simp [scopesAt, unregister, Std.TreeMap.getD_erase, same, Ne.symm same]

end Memtable

namespace Dsu

theorem lookup_snd (decreasing : d.Decreasing) (compress : Bool) (x : NodeId) :
    (d.lookup compress x).2 = d.root x := by
  cases compress with
  | true => exact find_snd decreasing x
  | false => exact findRo_snd d x

theorem lookup_compressed (decreasing : d.Decreasing) (compress : Bool) (x : NodeId) :
    CompressedTo d (d.lookup compress x).1 := by
  cases compress with
  | true => exact find_compressed decreasing x
  | false => exact findRo_compressed decreasing x

end Dsu

namespace Tier

variable {β : Type u} [RoutingBase β]

section Updates

variable (t : Tier β) (d : Dsu) (root : NodeId) (scope : ScopeId) (scopes : List ScopeId)

omit [RoutingBase β]

@[simp]
theorem base_setGlobal : (t.setGlobal d).base = t.base :=
  rfl

@[simp]
theorem base_setOverlay : (t.setOverlay scope d).base = t.base :=
  rfl

@[simp]
theorem base_register : (t.register root scopes).base = t.base :=
  rfl

@[simp]
theorem base_unregister : (t.unregister root).base = t.base :=
  rfl

@[simp]
theorem mem_register : (t.register root scopes).mem = t.mem.register root scopes :=
  rfl

@[simp]
theorem mem_unregister : (t.unregister root).mem = t.mem.unregister root :=
  rfl

end Updates

/-- The composed root maps of a tier, and the two records of overlay state.
What is kept by the next fold is what the base has recorded, plus the live
shared roots of both endpoints of every memtable overlay link. -/
def view (t : Tier β) : ScopedView.View NodeId ScopeId where
  shared x := t.mem.global.root (RoutingBase.sharedRoot t.base x)
  overlay s x := t.mem.overlayRoot s (RoutingBase.overlayRoot t.base s x)
  registered r s := s ∈ t.mem.scopesAt r ∨ s ∈ RoutingBase.recordedScopes t.base r
  kept r s := s ∈ RoutingBase.recordedScopes t.base r ∨
    ∃ k, t.mem.overlayRoot s k ≠ k ∧
      (t.mem.global.root (RoutingBase.sharedRoot t.base k) = r ∨
        t.mem.global.root (RoutingBase.sharedRoot t.base (t.mem.overlayRoot s k)) = r)

/-- The view depends on the base, the root maps and the registry only. -/
theorem view_congr {t t' : Tier β} (base : t'.base = t.base)
    (global : t'.mem.global.root = t.mem.global.root)
    (overlay : t'.mem.overlayRoot = t.mem.overlayRoot)
    (scopesAt : t'.mem.scopesAt = t.mem.scopesAt) : t'.view = t.view := by
  unfold view
  rw [base, global, overlay, scopesAt]

/-- Memtable keys are composed roots: both tiers of the memtable lie over the
base. -/
structure WellFormed (t : Tier β) : Prop where
  base : RoutingBase.Lawful t.base
  global : t.mem.global.Decreasing
  overlays : ∀ s, (t.mem.overlay s).Decreasing
  sharedOver : Over t.mem.global.root (RoutingBase.sharedRoot t.base)
  overlayOver : ∀ s, Over (t.mem.overlayRoot s) (RoutingBase.overlayRoot t.base s)

namespace WellFormed

variable {t : Tier β}

theorem overlayRoot (wellFormed : t.WellFormed) (s : ScopeId) : IsRootMap (t.mem.overlayRoot s) :=
  Dsu.isRootMap (wellFormed.overlays s)

theorem sharedView (wellFormed : t.WellFormed) : IsRootMap t.view.shared :=
  wellFormed.sharedOver.isRootMap_comp wellFormed.base.shared
    (Dsu.isRootMap wellFormed.global)

theorem overlayView (wellFormed : t.WellFormed) (s : ScopeId) : IsRootMap (t.view.overlay s) :=
  (wellFormed.overlayOver s).isRootMap_comp (wellFormed.base.overlay s) (wellFormed.overlayRoot s)

end WellFormed

/-- `t'` is `t` after some compressing writes. -/
structure CompressedTo (t t' : Tier β) : Prop where
  base_eq : t'.base = t.base
  memberIndex_eq : t'.mem.memberIndex = t.mem.memberIndex
  registry_eq : t'.mem.registry = t.mem.registry
  global : Dsu.CompressedTo t.mem.global t'.mem.global
  overlay : ∀ s, Dsu.CompressedTo (t.mem.overlay s) (t'.mem.overlay s)
  mem_overlays : ∀ s, s ∈ t'.mem.overlays ↔ s ∈ t.mem.overlays

namespace CompressedTo

variable {t t' t'' : Tier β}

theorem refl (wellFormed : t.WellFormed) : CompressedTo t t :=
  ⟨rfl, rfl, rfl, .refl wellFormed.global, fun s => .refl (wellFormed.overlays s), fun _ => .rfl⟩

omit [RoutingBase β] in
theorem trans (first : CompressedTo t t') (second : CompressedTo t' t'') : CompressedTo t t'' where
  base_eq := second.base_eq.trans first.base_eq
  memberIndex_eq := second.memberIndex_eq.trans first.memberIndex_eq
  registry_eq := second.registry_eq.trans first.registry_eq
  global := first.global.trans second.global
  overlay s := (first.overlay s).trans (second.overlay s)
  mem_overlays s := (second.mem_overlays s).trans (first.mem_overlays s)

omit [RoutingBase β] in
theorem overlayRoot_eq (compressed : CompressedTo t t') :
    t'.mem.overlayRoot = t.mem.overlayRoot := by
  funext s x
  exact congrFun (compressed.overlay s).root_eq x

omit [RoutingBase β] in
theorem scopesAt_eq (compressed : CompressedTo t t') : t'.mem.scopesAt = t.mem.scopesAt := by
  funext r
  rw [Memtable.scopesAt, compressed.registry_eq, Memtable.scopesAt]

theorem view_eq (compressed : CompressedTo t t') : t'.view = t.view :=
  view_congr compressed.base_eq compressed.global.root_eq compressed.overlayRoot_eq
    compressed.scopesAt_eq

theorem wellFormed (compressed : CompressedTo t t') (wellFormed : t.WellFormed) :
    t'.WellFormed where
  base := compressed.base_eq ▸ wellFormed.base
  global := compressed.global.decreasing
  overlays s := (compressed.overlay s).decreasing
  sharedOver := by
    rw [compressed.base_eq, compressed.global.root_eq]
    exact wellFormed.sharedOver
  overlayOver := by
    rw [compressed.base_eq, compressed.overlayRoot_eq]
    exact wellFormed.overlayOver

end CompressedTo

/-! ## Lookups answer from the view -/

theorem compressedTo_setGlobal {t : Tier β} (wellFormed : t.WellFormed)
    (compressed : Dsu.CompressedTo t.mem.global d) : CompressedTo t (t.setGlobal d) :=
  ⟨rfl, rfl, rfl, compressed, fun s => .refl (wellFormed.overlays s), fun _ => .rfl⟩

theorem compressedTo_setOverlay {t : Tier β} (wellFormed : t.WellFormed)
    (present : scope ∈ t.mem.overlays) (compressed : Dsu.CompressedTo (t.mem.overlay scope) d) :
    CompressedTo t (t.setOverlay scope d) where
  base_eq := rfl
  memberIndex_eq := rfl
  registry_eq := rfl
  global := .refl wellFormed.global
  overlay s := by
    by_cases same : s = scope
    · subst same
      rw [setOverlay, Memtable.overlay_setOverlay_self]
      exact compressed
    · rw [setOverlay, Memtable.overlay_setOverlay_of_ne _ same]
      exact .refl (wellFormed.overlays s)
  mem_overlays s := by
    rw [setOverlay, Memtable.mem_overlays_setOverlay]
    constructor
    · rintro (rfl | member)
      · exact present
      · exact member
    · exact Or.inr

/-- A shared lookup returns the composed shared root.  A memtable answer other
than the node itself needs no base probe, because the base fixes memtable
keys. -/
theorem sharedRoot_spec {t : Tier β} (wellFormed : t.WellFormed) (x : NodeId) (compress : Bool) :
    (t.sharedRoot x compress).2 = t.view.shared x ∧
      CompressedTo t (t.sharedRoot x compress).1 := by
  have found := Dsu.lookup_snd wellFormed.global compress x
  have first := Dsu.lookup_compressed wellFormed.global compress x
  have step := compressedTo_setGlobal wellFormed first
  unfold sharedRoot view
  dsimp only
  rw [found]
  by_cases moved : t.mem.global.root x = x
  · simp only [moved, ne_eq, not_true_eq_false, if_false, base_setGlobal]
    cases probe : t.base.bind fun b => RoutingBase.sharedParent b x with
    | none =>
      have baseFixed : RoutingBase.sharedRoot t.base x = x := by
        simp [RoutingBase.sharedRoot, probe]
      exact ⟨by rw [baseFixed, moved], step⟩
    | some b =>
      have baseMoves : RoutingBase.sharedRoot t.base x = b := by
        simp [RoutingBase.sharedRoot, probe]
      by_cases trivial : b = x
      · simp only [trivial, not_true_eq_false, if_false]
        exact ⟨by rw [baseMoves, trivial, moved], step⟩
      · simp only [trivial, not_false_eq_true, if_true]
        have second := Dsu.lookup_compressed first.decreasing compress b
        refine ⟨?_, step.trans (compressedTo_setGlobal (step.wellFormed wellFormed) second)⟩
        rw [baseMoves]
        change ((t.mem.global.lookup compress x).1.lookup compress b).2 = _
        rw [Dsu.lookup_snd first.decreasing, first.root_eq]
  · simp only [ne_eq, moved, not_false_eq_true, if_true]
    refine ⟨?_, step⟩
    rw [(wellFormed.sharedOver x moved).1]

theorem overlayRoot_spec {t : Tier β} (wellFormed : t.WellFormed) (s : ScopeId) (x : NodeId)
    (compress : Bool) :
    (t.overlayRoot s x compress).2 = t.view.overlay s x ∧
      CompressedTo t (t.overlayRoot s x compress).1 := by
  unfold overlayRoot view
  dsimp only
  cases stored : t.mem.overlays[s]? with
  | none =>
    have identity : ∀ y, t.mem.overlayRoot s y = y := by
      intro y
      rw [Memtable.overlayRoot, Memtable.overlay_of_none stored, Dsu.root_trackingMembers]
    dsimp only
    rw [identity]
    cases probe : t.base.bind fun b => RoutingBase.overlayParent b s x with
    | none => simp [RoutingBase.overlayRoot, probe, CompressedTo.refl wellFormed]
    | some b =>
      by_cases trivial : b = x <;>
        simp [RoutingBase.overlayRoot, probe, trivial, CompressedTo.refl wellFormed]
  | some d =>
    have overlayEq := Memtable.overlay_of_some stored
    have present := KeyedMap.mem_of_getElem? stored
    have decreasing : d.Decreasing := overlayEq ▸ wellFormed.overlays s
    have rootEq : ∀ y, t.mem.overlayRoot s y = d.root y := by
      intro y
      rw [Memtable.overlayRoot, overlayEq]
    have first := Dsu.lookup_compressed decreasing compress x
    have step := compressedTo_setOverlay wellFormed present (d := (d.lookup compress x).1)
      (overlayEq ▸ first)
    dsimp only
    rw [Dsu.lookup_snd decreasing, rootEq]
    by_cases moved : d.root x = x
    · simp only [moved, ne_eq, not_true_eq_false, if_false, base_setOverlay]
      cases probe : t.base.bind fun b => RoutingBase.overlayParent b s x with
      | none =>
        have baseFixed : RoutingBase.overlayRoot t.base s x = x := by
          simp [RoutingBase.overlayRoot, probe]
        exact ⟨by rw [baseFixed, moved], step⟩
      | some b =>
        have baseMoves : RoutingBase.overlayRoot t.base s x = b := by
          simp [RoutingBase.overlayRoot, probe]
        by_cases trivial : b = x
        · simp only [trivial, if_true]
          exact ⟨by rw [baseMoves, trivial, moved], step⟩
        · simp only [trivial, if_false]
          have second := Dsu.lookup_compressed first.decreasing compress b
          refine ⟨?_, step.trans (compressedTo_setOverlay (step.wellFormed wellFormed)
            ((step.mem_overlays s).mpr present) ?_)⟩
          · rw [baseMoves, Dsu.lookup_snd first.decreasing, first.root_eq]
          · rw [setOverlay, Memtable.overlay_setOverlay_self]
            exact second
    · simp only [ne_eq, moved, not_false_eq_true, if_true]
      refine ⟨?_, step⟩
      rw [(wellFormed.overlayOver s x (by rw [rootEq]; exact moved)).1]

end Tier

end Blaze
