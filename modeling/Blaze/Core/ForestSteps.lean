import Blaze.Core.ForestView

/-!
# What an event does to the view

Applying an event performs one union in the shared tier or in some overlays.
This file shows that each union is a link of the composed root maps and derives
the step of the scoped view that a global and a scoped event make.
-/

namespace Blaze

open RootMap ScopedView

variable {r : NodeId} {s s' : ScopeId} {scopes : List ScopeId}

universe u

namespace Tier

variable {β : Type u} [RoutingBase β]

/-- Union two composed shared roots in the memtable. -/
def unionShared (t : Tier β) (ru rv : NodeId) : Tier β :=
  t.setGlobal (t.mem.global.union ru rv).1

/-- Union two composed overlay roots in the memtable's overlay of a scope. -/
def unionOverlay (t : Tier β) (s : ScopeId) (a b : NodeId) : Tier β :=
  t.setOverlay s ((t.mem.overlay s).union a b).1

section Shared

variable {t : Tier β} (wellFormed : t.WellFormed) (u v : NodeId)

include wellFormed

theorem global_root_unionShared :
    (t.unionShared (t.view.shared u) (t.view.shared v)).mem.global.root =
      link t.mem.global.root (t.view.shared u) (t.view.shared v) :=
  (Dsu.union_spec wellFormed.global _ _).root_eq

theorem view_unionShared_shared :
    (t.unionShared (t.view.shared u) (t.view.shared v)).view.shared =
      link t.view.shared u v := by
  funext x
  change (t.unionShared _ _).mem.global.root (RoutingBase.sharedRoot t.base x) = _
  rw [global_root_unionShared wellFormed]
  exact link_comp (Dsu.isRootMap wellFormed.global) u v x

theorem view_unionShared_of_eq {u v : NodeId} (same : t.view.shared u = t.view.shared v) :
    (t.unionShared (t.view.shared u) (t.view.shared v)).view = t.view := by
  have rootEq := global_root_unionShared wellFormed u v
  rw [link_eq_self (by rw [same])] at rootEq
  exact view_congr rfl rootEq rfl rfl

theorem wellFormed_unionShared :
    (t.unionShared (t.view.shared u) (t.view.shared v)).WellFormed where
  base := wellFormed.base
  global := (Dsu.union_spec wellFormed.global _ _).decreasing
  overlays := wellFormed.overlays
  sharedOver := by
    rw [global_root_unionShared wellFormed]
    have idem := (Dsu.isRootMap wellFormed.global).idem
    exact wellFormed.sharedOver.link
      (wellFormed.sharedOver.fixed wellFormed.base.shared u)
      (wellFormed.sharedOver.fixed wellFormed.base.shared v) (idem _) (idem _)
  overlayOver := wellFormed.overlayOver

/-- What is on the durable record stays there, except at the absorbed root. -/
theorem kept_unionShared (other : r ≠ max (t.view.shared u) (t.view.shared v))
    (kept : t.view.kept r s) :
    (t.unionShared (t.view.shared u) (t.view.shared v)).view.kept r s := by
  have stays : ∀ x, t.view.shared x = r →
      (t.unionShared (t.view.shared u) (t.view.shared v)).view.shared x = r := by
    intro x resolved
    rw [view_unionShared_shared wellFormed, link_apply_of_ne (by rw [resolved]; exact other),
      resolved]
  rcases kept with recorded | ⟨k, moved, left | right⟩
  · exact Or.inl recorded
  · exact Or.inr ⟨k, moved, Or.inl (stays k left)⟩
  · exact Or.inr ⟨k, moved, Or.inr (stays _ right)⟩

end Shared

section Overlay

variable {t : Tier β} (wellFormed : t.WellFormed) (s : ScopeId) (x y : NodeId)

include wellFormed

theorem overlayRoot_unionOverlay :
    (t.unionOverlay s (t.view.overlay s x) (t.view.overlay s y)).mem.overlayRoot s =
      link (t.mem.overlayRoot s) (t.view.overlay s x) (t.view.overlay s y) := by
  funext z
  rw [Memtable.overlayRoot, unionOverlay, setOverlay, Memtable.overlay_setOverlay_self]
  exact congrFun (Dsu.union_spec (wellFormed.overlays s) _ _).root_eq z

omit wellFormed [RoutingBase β] in
theorem overlayRoot_unionOverlay_of_ne {a b : NodeId} (other : s' ≠ s) :
    (t.unionOverlay s a b).mem.overlayRoot s' = t.mem.overlayRoot s' := by
  funext z
  rw [Memtable.overlayRoot, unionOverlay, setOverlay, Memtable.overlay_setOverlay_of_ne _ other,
    Memtable.overlayRoot]

theorem view_unionOverlay_overlay :
    (t.unionOverlay s (t.view.overlay s x) (t.view.overlay s y)).view.overlay s =
      link (t.view.overlay s) x y := by
  funext z
  change (t.unionOverlay s _ _).mem.overlayRoot s (RoutingBase.overlayRoot t.base s z) = _
  rw [overlayRoot_unionOverlay wellFormed]
  exact link_comp (wellFormed.overlayRoot s) x y z

omit wellFormed in
theorem view_unionOverlay_of_ne {a b : NodeId} (other : s' ≠ s) :
    (t.unionOverlay s a b).view.overlay s' = t.view.overlay s' := by
  funext z
  change (t.unionOverlay s a b).mem.overlayRoot s' _ = _
  rw [overlayRoot_unionOverlay_of_ne s other]
  rfl

theorem wellFormed_unionOverlay :
    (t.unionOverlay s (t.view.overlay s x) (t.view.overlay s y)).WellFormed where
  base := wellFormed.base
  global := wellFormed.global
  overlays s' := by
    by_cases same : s' = s
    · subst same
      rw [unionOverlay, setOverlay, Memtable.overlay_setOverlay_self]
      exact (Dsu.union_spec (wellFormed.overlays s') _ _).decreasing
    · rw [unionOverlay, setOverlay, Memtable.overlay_setOverlay_of_ne _ same]
      exact wellFormed.overlays s'
  sharedOver := wellFormed.sharedOver
  overlayOver s' := by
    by_cases same : s' = s
    · subst same
      rw [overlayRoot_unionOverlay wellFormed]
      have idem := (wellFormed.overlayRoot s').idem
      exact (wellFormed.overlayOver s').link
        ((wellFormed.overlayOver s').fixed (wellFormed.base.overlay s') x)
        ((wellFormed.overlayOver s').fixed (wellFormed.base.overlay s') y) (idem _) (idem _)
    · rw [overlayRoot_unionOverlay_of_ne s same]
      exact wellFormed.overlayOver s'

/-- The new link itself puts both of its endpoints on the durable record. -/
theorem kept_unionOverlay_ends (different : t.view.overlay s x ≠ t.view.overlay s y) :
    let t' := t.unionOverlay s (t.view.overlay s x) (t.view.overlay s y)
    t'.view.kept (t.view.shared (t.view.overlay s x)) s ∧
      t'.view.kept (t.view.shared (t.view.overlay s y)) s := by
  intro t'
  set a := t.view.overlay s x with aDef
  set b := t.view.overlay s y with bDef
  have fixedA : t.mem.overlayRoot s a = a := (wellFormed.overlayRoot s).idem _
  have fixedB : t.mem.overlayRoot s b = b := (wellFormed.overlayRoot s).idem _
  have absorbed : t'.mem.overlayRoot s (max a b) = min a b := by
    have rootEq := overlayRoot_unionOverlay wellFormed s x y
    rw [← aDef, ← bDef] at rootEq
    rw [rootEq]
    have top : t.mem.overlayRoot s (max a b) = max a b := by
      rcases max_choice a b with choice | choice <;> rw [choice] <;> assumption
    rw [link_apply_of_eq (by rw [top, fixedA, fixedB]), fixedA, fixedB]
  have moved : t'.mem.overlayRoot s (max a b) ≠ max a b := by
    rw [absorbed]
    exact (min_lt_max.mpr different).ne
  have upper : t'.view.kept (t.view.shared (max a b)) s := Or.inr ⟨max a b, moved, Or.inl rfl⟩
  have lower : t'.view.kept (t.view.shared (min a b)) s :=
    Or.inr ⟨max a b, moved, Or.inr (by rw [absorbed]; rfl)⟩
  rcases le_total a b with order | order
  · rw [max_eq_right order] at upper
    rw [min_eq_left order] at lower
    exact ⟨lower, upper⟩
  · rw [max_eq_left order] at upper
    rw [min_eq_right order] at lower
    exact ⟨upper, lower⟩

/-- A union in one overlay takes nothing off the durable record.  If a recorded
root was the image of a key that the union moves on, the absorbed root is now a
key of its own. -/
theorem kept_unionOverlay (kept : t.view.kept r s') :
    (t.unionOverlay s (t.view.overlay s x) (t.view.overlay s y)).view.kept r s' := by
  by_cases other : s' = s
  · subst other
    by_cases same : t.view.overlay s' x = t.view.overlay s' y
    · have unchanged := overlayRoot_unionOverlay wellFormed s' x y
      have idem := (wellFormed.overlayRoot s').idem
      rw [link_eq_self (by rw [same])] at unchanged
      rcases kept with recorded | ⟨k, moved, resolved⟩
      · exact Or.inl recorded
      · refine Or.inr ⟨k, by rw [unchanged]; exact moved, ?_⟩
        rw [unchanged]
        exact resolved
    · have rootEq := overlayRoot_unionOverlay wellFormed s' x y
      have rootMap := wellFormed.overlayRoot s'
      rcases kept with recorded | ⟨k, moved, resolved⟩
      · exact Or.inl recorded
      · have stillMoved : (t.unionOverlay s' (t.view.overlay s' x)
            (t.view.overlay s' y)).mem.overlayRoot s' k ≠ k := by
          rw [rootEq]
          have lower := link_le (t.mem.overlayRoot s') (t.view.overlay s' x) (t.view.overlay s' y) k
          exact (lower.trans_lt (rootMap.lt_self moved)).ne
        rcases resolved with left | right
        · exact Or.inr ⟨k, stillMoved, Or.inl left⟩
        · by_cases hit : t.mem.overlayRoot s' k =
              max (t.mem.overlayRoot s' (t.view.overlay s' x))
                (t.mem.overlayRoot s' (t.view.overlay s' y))
          · have ends := kept_unionOverlay_ends wellFormed s' x y same
            have idemX : t.mem.overlayRoot s' (t.view.overlay s' x) = t.view.overlay s' x :=
              rootMap.idem _
            have idemY : t.mem.overlayRoot s' (t.view.overlay s' y) = t.view.overlay s' y :=
              rootMap.idem _
            rw [idemX, idemY] at hit
            rw [← right]
            change View.kept _ (t.view.shared (t.mem.overlayRoot s' k)) s'
            rw [hit]
            rcases max_choice (t.view.overlay s' x) (t.view.overlay s' y) with choice | choice
            · rw [choice]; exact ends.1
            · rw [choice]; exact ends.2
          · refine Or.inr ⟨k, stillMoved, Or.inr ?_⟩
            rw [rootEq, link_apply_of_ne hit]
            exact right
  · rcases kept with recorded | ⟨k, moved, resolved⟩
    · exact Or.inl recorded
    · refine Or.inr ⟨k, ?_, ?_⟩ <;> rw [overlayRoot_unionOverlay_of_ne s other]
      · exact moved
      · exact resolved

end Overlay

section Registry

variable {t : Tier β} (root : NodeId) (scopes : List ScopeId)

theorem view_register_registered (r : NodeId) (s : ScopeId) :
    (t.register root scopes).view.registered r s ↔
      t.view.registered r s ∨ r = root ∧ s ∈ scopes := by
  simp only [view, mem_register, base_register, Memtable.mem_scopesAt_register]
  exact or_right_comm

theorem WellFormed.register (wellFormed : t.WellFormed) : (t.register root scopes).WellFormed :=
  ⟨wellFormed.base, wellFormed.global, wellFormed.overlays, wellFormed.sharedOver,
    wellFormed.overlayOver⟩

theorem view_unregister_registered (other : r ≠ root) (s : ScopeId) :
    (t.unregister root).view.registered r s ↔ t.view.registered r s := by
  simp only [view, mem_unregister, base_unregister, Memtable.mem_scopesAt_unregister, ne_eq,
    other, not_false_eq_true, true_and]

theorem WellFormed.unregister (wellFormed : t.WellFormed) : (t.unregister root).WellFormed :=
  ⟨wellFormed.base, wellFormed.global, wellFormed.overlays, wellFormed.sharedOver,
    wellFormed.overlayOver⟩

end Registry

/-- What linking `x` and `y` in the overlays of the listed scopes does to a
tier: nothing but those links, and both endpoints of each go on the durable
record. -/
structure OverlayLinked (t t' : Tier β) (scopes : List ScopeId) (x y : NodeId) : Prop where
  wellFormed : t'.WellFormed
  base_eq : t'.base = t.base
  shared : t'.view.shared = t.view.shared
  scopesAt : t'.mem.scopesAt = t.mem.scopesAt
  overlay : ∀ s ∈ scopes, t'.view.overlay s = link (t.view.overlay s) x y
  others : ∀ s, s ∉ scopes → t'.view.overlay s = t.view.overlay s
  kept : ∀ r s, t.view.kept r s → t'.view.kept r s
  keptLink : ∀ s ∈ scopes, t.view.overlay s x ≠ t.view.overlay s y →
    t'.view.kept (t.view.shared (t.view.overlay s x)) s ∧
      t'.view.kept (t.view.shared (t.view.overlay s y)) s

namespace OverlayLinked

variable {t t' t'' : Tier β} {x y : NodeId}

theorem nil (wellFormed : t.WellFormed) : OverlayLinked t t [] x y :=
  ⟨wellFormed, rfl, rfl, rfl, by simp, fun _ _ => rfl, fun _ _ => id, by simp⟩

theorem unionOverlay (wellFormed : t.WellFormed) (s : ScopeId) (x y : NodeId) :
    OverlayLinked t (t.unionOverlay s (t.view.overlay s x) (t.view.overlay s y)) [s] x y where
  wellFormed := wellFormed_unionOverlay wellFormed s x y
  base_eq := rfl
  shared := rfl
  scopesAt := rfl
  overlay := by
    intro s' listed
    obtain rfl := List.mem_singleton.mp listed
    exact view_unionOverlay_overlay wellFormed s' x y
  others s' unlisted := view_unionOverlay_of_ne s (by simpa using unlisted)
  kept r s' := kept_unionOverlay wellFormed s x y
  keptLink := by
    intro s' listed different
    obtain rfl := List.mem_singleton.mp listed
    exact kept_unionOverlay_ends wellFormed s' x y different

/-- Linking two points that already share an overlay class is no change. -/
theorem of_eq (wellFormed : t.WellFormed) (same : t.view.overlay s x = t.view.overlay s y) :
    OverlayLinked t t [s] x y where
  wellFormed := wellFormed
  base_eq := rfl
  shared := rfl
  scopesAt := rfl
  overlay := by
    intro s' listed
    obtain rfl := List.mem_singleton.mp listed
    rw [link_eq_self same]
  others _ _ := rfl
  kept _ _ := id
  keptLink := by
    intro s' listed different
    obtain rfl := List.mem_singleton.mp listed
    exact absurd same different

theorem of_compressed (compressed : CompressedTo t t') (linked : OverlayLinked t' t'' scopes x y) :
    OverlayLinked t t'' scopes x y := by
  obtain ⟨wellFormed, baseEq, shared, scopesAt, overlay, others, kept, keptLink⟩ := linked
  rw [compressed.view_eq] at shared overlay others kept keptLink
  exact ⟨wellFormed, baseEq.trans compressed.base_eq, shared,
    scopesAt.trans compressed.scopesAt_eq, overlay, others, kept, keptLink⟩

/-- Links in different scopes do not see each other. -/
theorem cons (first : OverlayLinked t t' [s] x y) (rest : OverlayLinked t' t'' scopes x y)
    (fresh : s ∉ scopes) :
    OverlayLinked t t'' (s :: scopes) x y where
  wellFormed := rest.wellFormed
  base_eq := rest.base_eq.trans first.base_eq
  shared := rest.shared.trans first.shared
  scopesAt := rest.scopesAt.trans first.scopesAt
  overlay := by
    intro s' listed
    rcases List.mem_cons.mp listed with rfl | later
    · rw [rest.others s' fresh, first.overlay s' (by simp)]
    · have distinct : s' ≠ s := fun same => fresh (same ▸ later)
      rw [rest.overlay s' later, first.others s' (by simpa using distinct)]
  others := by
    intro s' unlisted
    simp only [List.mem_cons, not_or] at unlisted
    rw [rest.others s' unlisted.2, first.others s' (by simpa using unlisted.1)]
  kept r s' old := rest.kept r s' (first.kept r s' old)
  keptLink := by
    intro s' listed different
    rcases List.mem_cons.mp listed with rfl | later
    · obtain ⟨left, right⟩ := first.keptLink s' (by simp) different
      exact ⟨rest.kept _ _ left, rest.kept _ _ right⟩
    · have distinct : s' ≠ s := fun same => fresh (same ▸ later)
      have unchanged := first.others s' (by simpa using distinct)
      have ends := rest.keptLink s' later (by rw [unchanged]; exact different)
      rwa [unchanged, first.shared] at ends

end OverlayLinked

end Tier

namespace ScopedForest

variable {β : Type u} [RoutingBase β]

/-- Resolve two points of one overlay, then union what they resolved to. -/
theorem overlayLinked_resolve {t : Tier β} (wellFormed : t.WellFormed) (s : ScopeId)
    (x y : NodeId) :
    let first := t.overlayRoot s x true
    let second := first.1.overlayRoot s y true
    first.2 = t.view.overlay s x ∧ second.2 = t.view.overlay s y ∧
      Tier.CompressedTo t second.1 ∧
      Tier.OverlayLinked t (second.1.unionOverlay s first.2 second.2) [s] x y := by
  intro first second
  obtain ⟨foundX, compressedX⟩ := Tier.overlayRoot_spec wellFormed s x true
  obtain ⟨foundY, compressedY⟩ :=
    Tier.overlayRoot_spec (compressedX.wellFormed wellFormed) s y true
  have compressed := compressedX.trans compressedY
  rw [compressedX.view_eq] at foundY
  refine ⟨foundX, foundY, compressed, ?_⟩
  have linked := Tier.OverlayLinked.unionOverlay (compressed.wellFormed wellFormed) s x y
  rw [compressed.view_eq] at linked
  change Tier.OverlayLinked t (Tier.unionOverlay _ s (t.overlayRoot s x true).2
    ((t.overlayRoot s x true).1.overlayRoot s y true).2) [s] x y
  rw [foundX, foundY]
  exact linked.of_compressed compressed

theorem fixUp_linked (f : ScopedForest β) (wellFormed : f.tier.WellFormed) (merge : Merge)
    (s : ScopeId) :
    Tier.OverlayLinked f.tier (fixUp merge f s).tier [s] merge.child merge.parent := by
  obtain ⟨foundA, foundB, compressed, linked⟩ :=
    overlayLinked_resolve wellFormed s merge.child merge.parent
  unfold fixUp
  dsimp only
  split
  · exact linked
  · next same =>
      rw [foundA, foundB, not_not] at same
      refine Tier.OverlayLinked.of_compressed compressed
        (.of_eq (compressed.wellFormed wellFormed) ?_)
      rw [compressed.view_eq]
      exact same

/-- The whole notification loop. -/
theorem foldl_fixUp_linked (f : ScopedForest β) (wellFormed : f.tier.WellFormed) (merge : Merge)
    (distinct : scopes.Nodup) :
    Tier.OverlayLinked f.tier (scopes.foldl (fixUp merge) f).tier scopes
      merge.child merge.parent := by
  induction scopes generalizing f with
  | nil => exact Tier.OverlayLinked.nil wellFormed
  | cons s scopes ih =>
    obtain ⟨fresh, distinct⟩ := List.nodup_cons.mp distinct
    have first := fixUp_linked f wellFormed merge s
    exact first.cons (ih (fixUp merge f s) first.wellFormed distinct) fresh

theorem mem_notified (t : Tier β) (r : NodeId) (s : ScopeId) :
    s ∈ notified t r ↔ t.view.registered r s := by
  simp [notified, Tier.view, Std.TreeSet.mem_insertMany_list]

theorem nodup_notified (t : Tier β) (r : NodeId) : (notified t r).Nodup := by
  have distinct := Std.TreeSet.distinct_toList
    (t := (t.mem.scopesAt r).insertMany (RoutingBase.recordedScopes t.base r))
  refine distinct.imp ?_
  intro a b different same
  exact different (by simp [same])

/-- Two shared lookups in a row. -/
theorem sharedRoots_resolve {t : Tier β} (wellFormed : t.WellFormed) (u v : NodeId) :
    let first := t.sharedRoot u true
    let second := first.1.sharedRoot v true
    first.2 = t.view.shared u ∧ second.2 = t.view.shared v ∧
      Tier.CompressedTo t second.1 := by
  intro first second
  obtain ⟨foundU, compressedU⟩ := Tier.sharedRoot_spec wellFormed u true
  obtain ⟨foundV, compressedV⟩ :=
    Tier.sharedRoot_spec (compressedU.wellFormed wellFormed) v true
  rw [compressedU.view_eq] at foundV
  exact ⟨foundU, foundV, compressedU.trans compressedV⟩

/-- What the notification after a merge does to a tier whose shared maps are
already merged. -/
structure Notified (t t' : Tier β) (child parent : NodeId) : Prop where
  wellFormed : t'.WellFormed
  base_eq : t'.base = t.base
  shared : t'.view.shared = t.view.shared
  overlay : ∀ s, t.view.registered child s →
    t'.view.overlay s = link (t.view.overlay s) child parent
  others : ∀ s, ¬ t.view.registered child s → t'.view.overlay s = t.view.overlay s
  registered : ∀ r s, r ≠ child → t.view.registered r s → t'.view.registered r s
  registeredParent : ∀ s, t.view.registered child s → t'.view.registered parent s
  kept : ∀ r s, t.view.kept r s → t'.view.kept r s
  keptLink : ∀ s, t.view.registered child s →
    t.view.overlay s child ≠ t.view.overlay s parent →
      t'.view.kept (t.view.shared (t.view.overlay s child)) s ∧
        t'.view.kept (t.view.shared (t.view.overlay s parent)) s

theorem notify_spec (f : ScopedForest β) (wellFormed : f.tier.WellFormed) (merge : Merge) :
    Notified f.tier (f.notify merge).tier merge.child merge.parent := by
  have linked := foldl_fixUp_linked (f.setTier (f.tier.unregister merge.child))
    (wellFormed.unregister merge.child) merge (nodup_notified f.tier merge.child)
  have listed := mem_notified f.tier merge.child
  generalize scopesDef : notified f.tier merge.child = scopes at linked listed
  generalize doneDef :
    scopes.foldl (fixUp merge) (f.setTier (f.tier.unregister merge.child)) = done at linked
  have registeredDone : ∀ r s, r ≠ merge.child → f.tier.view.registered r s →
      done.tier.view.registered r s := by
    intro r s other registered
    rw [← Tier.view_unregister_registered merge.child other] at registered
    unfold Tier.view
    dsimp only
    rw [linked.scopesAt, linked.base_eq]
    exact registered
  have keptDone : ∀ r s, f.tier.view.kept r s → done.tier.view.kept r s := linked.kept
  have core : ∀ t' : Tier β, t'.WellFormed → t'.base = done.tier.base →
      t'.view.shared = done.tier.view.shared →
      t'.view.overlay = done.tier.view.overlay → t'.view.kept = done.tier.view.kept →
      (∀ r s, done.tier.view.registered r s → t'.view.registered r s) →
      (∀ s ∈ scopes, t'.view.registered merge.parent s) →
      Notified f.tier t' merge.child merge.parent := by
    intro t' wellFormed' baseEq shared overlay kept registered registeredParent
    exact
      { wellFormed := wellFormed'
        base_eq := baseEq.trans linked.base_eq
        shared := shared.trans linked.shared
        overlay := fun s recorded => by
          rw [overlay]
          exact linked.overlay s ((listed s).mpr recorded)
        others := fun s silent => by
          rw [overlay]
          exact linked.others s fun member => silent ((listed s).mp member)
        registered := fun r s other recorded =>
          registered r s (registeredDone r s other recorded)
        registeredParent := fun s recorded => registeredParent s ((listed s).mpr recorded)
        kept := fun r s recorded => by
          rw [kept]
          exact keptDone r s recorded
        keptLink := fun s recorded different => by
          rw [kept]
          exact linked.keptLink s ((listed s).mpr recorded) different }
  unfold notify
  dsimp only
  rw [scopesDef, doneDef]
  split
  · next empty =>
      rw [List.isEmpty_iff] at empty
      exact core _ linked.wellFormed rfl rfl rfl rfl (fun _ _ => id) (by simp [empty])
  · refine core _ (linked.wellFormed.register _ _) rfl rfl rfl rfl (fun r s recorded => ?_)
      fun s member => ?_
    · exact (Tier.view_register_registered _ _ r s).mpr (Or.inl recorded)
    · exact (Tier.view_register_registered _ _ _ s).mpr (Or.inr ⟨rfl, member⟩)

/-- A global event resolves both ends, unions them, and notifies when that
merged something. -/
theorem applyGlobal_eq (f : ScopedForest β) (wellFormed : f.tier.WellFormed) (u v : NodeId) :
    ∃ t, Tier.CompressedTo f.tier t ∧
      f.applyGlobal u v =
        let f' := f.setTier (t.unionShared (f.tier.view.shared u) (f.tier.view.shared v))
        if f.tier.view.shared u = f.tier.view.shared v then f'
        else f'.notify ⟨max (f.tier.view.shared u) (f.tier.view.shared v),
          min (f.tier.view.shared u) (f.tier.view.shared v)⟩ := by
  obtain ⟨foundU, foundV, compressed⟩ := sharedRoots_resolve wellFormed u v
  refine ⟨_, compressed, ?_⟩
  have rootFixed : ∀ x, ((f.tier.sharedRoot u true).1.sharedRoot v true).1.mem.global.root
      (f.tier.view.shared x) = f.tier.view.shared x := by
    intro x
    rw [compressed.global.root_eq]
    exact (Dsu.isRootMap wellFormed.global).idem _
  have merged := (Dsu.union_spec compressed.global.decreasing
    (f.tier.view.shared u) (f.tier.view.shared v)).merge_eq
  rw [rootFixed, rootFixed] at merged
  unfold applyGlobal
  dsimp only
  rw [foundU, foundV, merged]
  by_cases same : f.tier.view.shared u = f.tier.view.shared v
  · simp only [if_pos same]
    rfl
  · simp only [if_neg same]
    rfl

/-- A merge in the shared tier is a shared step of the view. -/
theorem applyGlobal_step (f : ScopedForest β) (wellFormed : f.tier.WellFormed)
    (u v : NodeId) (apart : f.tier.view.shared u ≠ f.tier.view.shared v) :
    (f.applyGlobal u v).tier.WellFormed ∧
      Represents.SharedStep f.tier.view (f.applyGlobal u v).tier.view u v
        (max (f.tier.view.shared u) (f.tier.view.shared v))
        (min (f.tier.view.shared u) (f.tier.view.shared v)) := by
  obtain ⟨t, compressed, applied⟩ := applyGlobal_eq f wellFormed u v
  rw [if_neg apart] at applied
  have wellFormedT := compressed.wellFormed wellFormed
  have notified := notify_spec
    (f.setTier (t.unionShared (t.view.shared u) (t.view.shared v)))
    (Tier.wellFormed_unionShared wellFormedT u v)
    ⟨max (t.view.shared u) (t.view.shared v), min (t.view.shared u) (t.view.shared v)⟩
  have sharedUnion := Tier.view_unionShared_shared wellFormedT u v
  have keptUnion := fun r s =>
    Tier.kept_unionShared wellFormedT u v (r := r) (s := s)
  rw [← compressed.view_eq] at apart ⊢
  rw [← compressed.view_eq] at applied
  rw [applied]
  refine ⟨notified.wellFormed, ?_⟩
  exact
    { distinct := min_lt_max.mpr apart
      roots := by
        rcases le_total (t.view.shared u) (t.view.shared v) with order | order
        · exact Or.inr ⟨(min_eq_left order).symm, (max_eq_right order).symm⟩
        · exact Or.inl ⟨(max_eq_left order).symm, (min_eq_right order).symm⟩
      shared := notified.shared.trans sharedUnion
      notified := notified.overlay
      others := notified.others
      registered := notified.registered
      registeredParent := notified.registeredParent
      kept := fun r s other recorded => notified.kept r s (keptUnion r s other recorded)
      keptLink := fun s recorded different => by
        rw [notified.shared]
        exact notified.keptLink s recorded different }

/-- A global edge inside one component changes no answer. -/
theorem applyGlobal_of_eq (f : ScopedForest β) (wellFormed : f.tier.WellFormed)
    (u v : NodeId) (same : f.tier.view.shared u = f.tier.view.shared v) :
    (f.applyGlobal u v).tier.WellFormed ∧ (f.applyGlobal u v).tier.view = f.tier.view := by
  obtain ⟨t, compressed, applied⟩ := applyGlobal_eq f wellFormed u v
  rw [if_pos same] at applied
  have wellFormedT := compressed.wellFormed wellFormed
  rw [← compressed.view_eq] at same applied ⊢
  rw [applied]
  exact ⟨Tier.wellFormed_unionShared wellFormedT u v, Tier.view_unionShared_of_eq wellFormedT same⟩

/-- Linking the shared representatives of `u` and `v` in one scope is a scoped
step of the view. -/
theorem linkScoped_step (f : ScopedForest β) (wellFormed : f.tier.WellFormed) (s : ScopeId)
    (u v : NodeId) :
    let f' := linkScoped (f.tier.view.shared u) (f.tier.view.shared v) f s
    f'.tier.WellFormed ∧ Represents.ScopedStep f.tier.view f'.tier.view s u v := by
  intro f'
  obtain ⟨-, -, -, linked⟩ :=
    overlayLinked_resolve wellFormed s (f.tier.view.shared u) (f.tier.view.shared v)
  have tierEq : ∃ t, f'.tier = (t.register (f.tier.view.shared u) [s]).register
      (f.tier.view.shared v) [s] ∧ Tier.OverlayLinked f.tier t [s] (f.tier.view.shared u)
        (f.tier.view.shared v) := ⟨_, rfl, linked⟩
  obtain ⟨t, tierEq, linked⟩ := tierEq
  have recorded : ∀ r s', f.tier.view.registered r s' → t.view.registered r s' := by
    intro r s' old
    unfold Tier.view
    dsimp only
    rw [linked.scopesAt, linked.base_eq]
    exact old
  rw [tierEq]
  refine ⟨(linked.wellFormed.register _ _).register _ _, ?_⟩
  exact
    { shared := linked.shared
      overlay := linked.overlay s (by simp)
      others := fun s' other => linked.others s' (by simpa using other)
      registered := fun r s' old => by
        rw [Tier.view_register_registered, Tier.view_register_registered]
        exact Or.inl (Or.inl (recorded r s' old))
      registeredLeft := by
        rw [Tier.view_register_registered, Tier.view_register_registered]
        exact Or.inl (Or.inr ⟨rfl, by simp⟩)
      registeredRight := by
        rw [Tier.view_register_registered]
        exact Or.inr ⟨rfl, by simp⟩
      kept := linked.kept
      keptLink := fun different => linked.keptLink s (by simp) different }

/-! ## Events leave the base alone -/

theorem applyGlobal_base (f : ScopedForest β) (wellFormed : f.tier.WellFormed) (u v : NodeId) :
    (f.applyGlobal u v).tier.base = f.tier.base := by
  obtain ⟨t, compressed, applied⟩ := applyGlobal_eq f wellFormed u v
  have wellFormedT := compressed.wellFormed wellFormed
  rw [← compressed.view_eq] at applied
  rw [applied, ← compressed.base_eq]
  dsimp only
  split
  · rfl
  · exact (notify_spec _ (Tier.wellFormed_unionShared wellFormedT u v) _).base_eq

theorem linkScoped_base (f : ScopedForest β) (wellFormed : f.tier.WellFormed) (ru rv : NodeId)
    (s : ScopeId) : (linkScoped ru rv f s).tier.base = f.tier.base := by
  obtain ⟨-, -, -, linked⟩ := overlayLinked_resolve wellFormed s ru rv
  exact linked.base_eq

end ScopedForest

end Blaze
