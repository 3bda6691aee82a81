import Blaze.Core.Connectivity

/-!
# How a memtable grows

Lookups compress paths and events link roots; nothing else ever happens to the
structures of a memtable.  An event links only points that are roots of the
composed maps, in an overlay as much as in the shared tier, so a point that a
memtable links is one the base has left alone in both tiers.
-/

namespace Blaze

open RootMap ScopedView

variable {allowed : NodeId → Prop} {d : Dsu} {x y : NodeId} {scopes : List ScopeId}
  {events : Set EdgeEvent}

universe u

namespace Dsu

/-- `d'` comes from `d` by compressing writes and by links between roots that
`allowed` admits. -/
inductive Grows (allowed : NodeId → Prop) : Dsu → Dsu → Prop
  | compressed {d d' : Dsu} (compressed : CompressedTo d d') : Grows allowed d d'
  | link {d : Dsu} {child parent : NodeId} (smaller : parent < child)
      (childRoot : d.root child = child) (parentRoot : d.root parent = parent)
      (childAllowed : allowed child) (parentAllowed : allowed parent) :
      Grows allowed d (d.link child parent)
  | recount (d : Dsu) (merges : Nat) : Grows allowed d { d with merges := merges }
  | trans {d d' d'' : Dsu} (first : Grows allowed d d') (second : Grows allowed d' d'') :
      Grows allowed d d''

namespace Grows

variable {allowed : NodeId → Prop} {d d' : Dsu}

theorem refl (d : Dsu) : Grows allowed d d :=
  .recount d d.merges

theorem decreasing (grows : Grows allowed d d') (start : d.Decreasing) : d'.Decreasing := by
  induction grows with
  | compressed compressed => exact compressed.decreasing
  | link smaller childRoot parentRoot => exact (link_spec start smaller childRoot parentRoot).1
  | recount d merges => exact start
  | trans _ _ first second => exact second (first start)

/-- Links between points that `below` fixes keep the root map over `below`. -/
theorem atop {below : NodeId → NodeId} (grows : Grows (fun x => below x = x) d d')
    (start : d.Decreasing) (atop : Over d.root below) : Over d'.root below := by
  induction grows with
  | compressed compressed =>
    rw [compressed.root_eq]
    exact atop
  | link smaller childRoot parentRoot childFixed parentFixed =>
    rw [(link_spec start smaller childRoot parentRoot).2]
    exact atop.link childFixed parentFixed childRoot parentRoot
  | recount d merges => exact atop
  | trans first _ firstOver secondOver =>
    exact secondOver (first.decreasing start) (firstOver start atop)

end Grows

/-- A union compresses and links two roots. -/
theorem grows_union (decreasing : d.Decreasing) (u v : NodeId) (allowedU : allowed (d.root u))
    (allowedV : allowed (d.root v)) : Grows allowed d (d.union u v).1 := by
  have first := find_compressed decreasing u
  have second := first.trans (find_compressed first.decreasing v)
  have idem := (isRootMap decreasing).idem
  have foundU : (d.find u).2 = d.root u := find_snd decreasing u
  have foundV : ((d.find u).1.find v).2 = d.root v := by
    rw [find_snd first.decreasing, first.root_eq]
  unfold union
  simp only [foundU, foundV]
  have rootU : ((d.find u).1.find v).1.root (d.root u) = d.root u := by rw [second.root_eq, idem]
  have rootV : ((d.find u).1.find v).1.root (d.root v) = d.root v := by rw [second.root_eq, idem]
  by_cases same : d.root u = d.root v
  · simp only [if_pos same]
    exact .compressed second
  · simp only [if_neg same]
    by_cases order : d.root u < d.root v
    · simp only [if_pos order]
      exact (Grows.compressed second).trans
        ((Grows.link order rootV rootU allowedV allowedU).trans (.recount _ _))
    · simp only [if_neg order]
      have reversed : d.root v < d.root u := lt_of_le_of_ne (not_lt.mp order) (Ne.symm same)
      exact (Grows.compressed second).trans
        ((Grows.link reversed rootU rootV allowedU allowedV).trans (.recount _ _))

theorem grows_union_of_roots (decreasing : d.Decreasing) {a b : NodeId} (rootA : d.root a = a)
    (rootB : d.root b = b) (allowedA : allowed a) (allowedB : allowed b) :
    Grows allowed d (d.union a b).1 :=
  grows_union decreasing a b (rootA.symm ▸ allowedA) (rootB.symm ▸ allowedB)

end Dsu

namespace Tier

variable {β : Type u} [RoutingBase β]

/-- `t'` comes from `t` by compressing writes, by changes to the registry, and by
links between points that the shared tier of the base fixes. -/
structure Evolves (t t' : Tier β) : Prop where
  base_eq : t'.base = t.base
  memberIndex_eq : t'.mem.memberIndex = t.mem.memberIndex
  global : Dsu.Grows (fun x => RoutingBase.sharedRoot t.base x = x) t.mem.global t'.mem.global
  overlay : ∀ s, Dsu.Grows (fun x => RoutingBase.sharedRoot t.base x = x) (t.mem.overlay s)
    (t'.mem.overlay s)

namespace Evolves

variable {t t' t'' : Tier β}

theorem refl (t : Tier β) : Evolves t t :=
  ⟨rfl, rfl, .refl _, fun _ => .refl _⟩

theorem trans (first : Evolves t t') (second : Evolves t' t'') : Evolves t t'' := by
  obtain ⟨baseEq, memberIndexEq, global, overlay⟩ := second
  rw [first.base_eq] at global overlay
  exact ⟨baseEq.trans first.base_eq, memberIndexEq.trans first.memberIndex_eq,
    first.global.trans global, fun s => (first.overlay s).trans (overlay s)⟩

theorem of_compressed (compressed : CompressedTo t t') : Evolves t t' :=
  ⟨compressed.base_eq, compressed.memberIndex_eq, .compressed compressed.global,
    fun s => .compressed (compressed.overlay s)⟩

theorem register (t : Tier β) (root : NodeId) (scopes : List ScopeId) :
    Evolves t (t.register root scopes) :=
  ⟨rfl, rfl, .refl _, fun _ => .refl _⟩

theorem unregister (t : Tier β) (root : NodeId) : Evolves t (t.unregister root) :=
  ⟨rfl, rfl, .refl _, fun _ => .refl _⟩

end Evolves

/-- A composed root is a point the base fixes. -/
theorem WellFormed.sharedRoot_view {t : Tier β} (wellFormed : t.WellFormed) (x : NodeId) :
    RoutingBase.sharedRoot t.base (t.view.shared x) = t.view.shared x :=
  wellFormed.sharedOver.fixed wellFormed.base.shared x

theorem evolves_unionShared {t : Tier β} (wellFormed : t.WellFormed) (u v : NodeId) :
    Evolves t (t.unionShared (t.view.shared u) (t.view.shared v)) where
  base_eq := rfl
  memberIndex_eq := rfl
  global := by
    have idem := (Dsu.isRootMap wellFormed.global).idem
    exact Dsu.grows_union_of_roots wellFormed.global (idem _) (idem _)
      (wellFormed.sharedRoot_view u) (wellFormed.sharedRoot_view v)
  overlay _ := .refl _

theorem evolves_unionOverlay {t : Tier β} (wellFormed : t.WellFormed) (s : ScopeId)
    (liveX : RoutingBase.sharedRoot t.base (t.view.overlay s x) = t.view.overlay s x)
    (liveY : RoutingBase.sharedRoot t.base (t.view.overlay s y) = t.view.overlay s y) :
    Evolves t (t.unionOverlay s (t.view.overlay s x) (t.view.overlay s y)) where
  base_eq := rfl
  memberIndex_eq := rfl
  global := .refl _
  overlay s' := by
    by_cases same : s' = s
    · subst same
      have idem := (wellFormed.overlayRoot s').idem
      rw [unionOverlay, setOverlay, Memtable.overlay_setOverlay_self]
      exact Dsu.grows_union_of_roots (wellFormed.overlays s') (idem _) (idem _) liveX liveY
    · rw [unionOverlay, setOverlay, Memtable.overlay_setOverlay_of_ne _ same]
      exact .refl _

end Tier

namespace ScopedForest

variable {β : Type u} [RoutingBase β]

/-- Resolving two points of one overlay and uniting what they resolved to. -/
theorem evolves_resolve {t : Tier β} (wellFormed : t.WellFormed) (s : ScopeId)
    (liveX : RoutingBase.sharedRoot t.base (t.view.overlay s x) = t.view.overlay s x)
    (liveY : RoutingBase.sharedRoot t.base (t.view.overlay s y) = t.view.overlay s y) :
    let first := t.overlayRoot s x true
    let second := first.1.overlayRoot s y true
    Tier.Evolves t second.1 ∧ Tier.Evolves t (second.1.unionOverlay s first.2 second.2) := by
  intro first second
  obtain ⟨foundX, foundY, compressed, -⟩ := overlayLinked_resolve wellFormed s x y
  have step := Tier.Evolves.of_compressed compressed
  refine ⟨step, ?_⟩
  rw [foundX, foundY]
  rw [← compressed.base_eq, ← compressed.view_eq] at liveX liveY
  have united := Tier.evolves_unionOverlay (compressed.wellFormed wellFormed) s liveX liveY
  rw [compressed.view_eq] at united
  exact step.trans united

theorem evolves_fixUp (f : ScopedForest β) (wellFormed : f.tier.WellFormed) (merge : Merge)
    (s : ScopeId)
    (liveChild : RoutingBase.sharedRoot f.tier.base (f.tier.view.overlay s merge.child) =
      f.tier.view.overlay s merge.child)
    (liveParent : RoutingBase.sharedRoot f.tier.base (f.tier.view.overlay s merge.parent) =
      f.tier.view.overlay s merge.parent) :
    Tier.Evolves f.tier (fixUp merge f s).tier := by
  obtain ⟨resolved, united⟩ := evolves_resolve wellFormed s liveChild liveParent
  unfold fixUp
  dsimp only
  split
  · exact united
  · exact resolved

/-- The notification loop.  A scope's overlay is as it was when its turn comes,
because the scopes are distinct. -/
theorem evolves_foldl_fixUp (f : ScopedForest β) (wellFormed : f.tier.WellFormed) (merge : Merge)
    (distinct : scopes.Nodup) (live : ∀ s ∈ scopes, ∀ x, x = merge.child ∨ x = merge.parent →
      RoutingBase.sharedRoot f.tier.base (f.tier.view.overlay s x) = f.tier.view.overlay s x) :
    Tier.Evolves f.tier (scopes.foldl (fixUp merge) f).tier := by
  induction scopes generalizing f with
  | nil => exact .refl _
  | cons s scopes ih =>
    obtain ⟨fresh, distinct⟩ := List.nodup_cons.mp distinct
    have linked := fixUp_linked f wellFormed merge s
    have here := live s List.mem_cons_self
    have first := evolves_fixUp f wellFormed merge s (here _ (Or.inl rfl)) (here _ (Or.inr rfl))
    apply first.trans
    apply ih (fixUp merge f s) linked.wellFormed distinct
    intro s' later x ends
    have other : s' ∉ [s] := by
      rw [List.mem_singleton]
      rintro rfl
      exact fresh later
    rw [linked.base_eq, linked.others s' other]
    exact live s' (List.mem_cons_of_mem s later) x ends

theorem evolves_notify (f : ScopedForest β) (wellFormed : f.tier.WellFormed) (merge : Merge)
    (live : ∀ s x, x = merge.child ∨ x = merge.parent →
      RoutingBase.sharedRoot f.tier.base (f.tier.view.overlay s x) = f.tier.view.overlay s x) :
    Tier.Evolves f.tier (f.notify merge).tier := by
  have loop := evolves_foldl_fixUp (f.setTier (f.tier.unregister merge.child))
    (wellFormed.unregister merge.child) merge (nodup_notified f.tier merge.child)
    fun s _ => live s
  have whole := (Tier.Evolves.unregister f.tier merge.child).trans loop
  unfold notify
  dsimp only
  split
  · exact whole
  · exact whole.trans (.register _ _ _)

/-- The base fixes the point that leads a live root's overlay class. -/
theorem Represents.leads {f : ScopedForest β} (represents : f.Represents events) (s : ScopeId)
    (live : f.tier.view.shared x = x) :
    RoutingBase.sharedRoot f.tier.base (f.tier.view.overlay s x) = f.tier.view.overlay s x := by
  rw [← represents.view.shared_overlay s live]
  exact represents.wellFormed.sharedRoot_view _

theorem evolves_applyGlobal (f : ScopedForest β) (represents : f.Represents events) (u v : NodeId) :
    Tier.Evolves f.tier (f.applyGlobal u v).tier := by
  have wellFormed := represents.wellFormed
  obtain ⟨t, compressed, applied⟩ := applyGlobal_eq f wellFormed u v
  have wellFormedT := compressed.wellFormed wellFormed
  have united := Tier.evolves_unionShared wellFormedT u v
  rw [compressed.view_eq] at united
  have whole := (Tier.Evolves.of_compressed compressed).trans united
  rw [applied]
  dsimp only
  split
  · exact whole
  · -- both ends of the merge were roots before it, so their overlay classes are
    -- led by points that were roots as well
    refine whole.trans (evolves_notify (f.setTier _) ?_ _ fun s x ends => ?_)
    · change (t.unionShared _ _).WellFormed
      rw [← compressed.view_eq]
      exact Tier.wellFormed_unionShared wellFormedT u v
    · have live : f.tier.view.shared x = x := by
        have idem := represents.view.shared.rootMap.idem
        rcases ends with rfl | rfl
        · rcases max_choice (f.tier.view.shared u) (f.tier.view.shared v) with choice | choice
          · rw [choice, idem]
          · rw [choice, idem]
        · rcases min_choice (f.tier.view.shared u) (f.tier.view.shared v) with choice | choice
          · rw [choice, idem]
          · rw [choice, idem]
      change RoutingBase.sharedRoot t.base (t.view.overlay s x) = t.view.overlay s x
      rw [compressed.base_eq, compressed.view_eq]
      exact represents.leads s live

/-- The scope loop of a scoped event. -/
theorem evolves_foldl_linkScoped (f : ScopedForest β) (wellFormed : f.tier.WellFormed)
    {u v : NodeId} (distinct : scopes.Nodup)
    (live : ∀ s ∈ scopes, ∀ x, x = f.tier.view.shared u ∨ x = f.tier.view.shared v →
      RoutingBase.sharedRoot f.tier.base (f.tier.view.overlay s x) = f.tier.view.overlay s x) :
    Tier.Evolves f.tier
      (scopes.foldl (linkScoped (f.tier.view.shared u) (f.tier.view.shared v)) f).tier := by
  induction scopes generalizing f with
  | nil => exact .refl _
  | cons s scopes ih =>
    obtain ⟨fresh, distinct⟩ := List.nodup_cons.mp distinct
    obtain ⟨wellFormed', step⟩ := linkScoped_step f wellFormed s u v
    have here := live s List.mem_cons_self
    have first : Tier.Evolves f.tier
        (linkScoped (f.tier.view.shared u) (f.tier.view.shared v) f s).tier :=
      ((evolves_resolve wellFormed s (here _ (Or.inl rfl)) (here _ (Or.inr rfl))).2.trans
        (.register _ _ [s])).trans (.register _ _ [s])
    have rest := ih _ wellFormed' distinct fun s' later x ends => by
      rw [step.shared] at ends
      rw [first.base_eq, step.others s' fun same => fresh (same ▸ later)]
      exact live s' (List.mem_cons_of_mem s later) x ends
    rw [step.shared] at rest
    exact first.trans rest

/-- What an event does to the memtable. -/
theorem evolves_apply (f : ScopedForest β) (represents : f.Represents events) (event : EdgeEvent) :
    Tier.Evolves f.tier (f.apply event).tier := by
  unfold apply
  cases normal : event.visibility.normalize with
  | global =>
    have evolves := evolves_applyGlobal f represents event.src event.dst
    dsimp only
    generalize f.applyGlobal event.src event.dst = f' at evolves
    exact evolves
  | scopedTo scopes =>
    obtain ⟨foundU, foundV, compressed⟩ :=
      sharedRoots_resolve represents.wellFormed event.src event.dst
    have evolves : Tier.Evolves f.tier (f.applyScoped event.src event.dst scopes).tier := by
      unfold applyScoped
      dsimp only
      rw [foundU, foundV]
      generalize ((f.tier.sharedRoot event.src true).1.sharedRoot event.dst true).1 = t at *
      rw [← compressed.view_eq]
      apply (Tier.Evolves.of_compressed compressed).trans
      apply evolves_foldl_linkScoped (f.setTier t)
        (compressed.wellFormed represents.wellFormed)
        ((Visibility.normalize_scoped normal).1.imp fun order => order.ne)
      intro s _ x ends
      change RoutingBase.sharedRoot t.base (t.view.overlay s x) = t.view.overlay s x
      change x = t.view.shared event.src ∨ x = t.view.shared event.dst at ends
      rw [compressed.view_eq] at ends
      rw [compressed.base_eq, compressed.view_eq]
      apply represents.leads s
      rcases ends with rfl | rfl <;> exact represents.view.shared.rootMap.idem _
    dsimp only
    generalize f.applyScoped event.src event.dst scopes = f' at evolves
    exact evolves

end ScopedForest

end Blaze
