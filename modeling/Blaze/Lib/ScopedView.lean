import Blaze.Lib.RootMap

/-!
# Scoped views of one graph

A shared graph is seen by many scopes, each of which adds edges of its own.
Instead of one partition per scope over all points, a scoped view keeps one
shared root map and, per scope, an overlay root map whose points are shared
representatives, some of them historical.  A registry remembers which scopes
hold overlay state at a shared representative, so that absorbing the
representative can be reported to those scopes only.

The invariant `Represents` says when such a view computes, for every scope, the
components of the shared graph together with the scope's edges.  The two step
lemmas say what a new shared edge and a new scoped edge have to do to keep it.
-/

namespace ScopedView

open RootMap

universe u v

/-- The shared partition, the overlays, and two records of which scopes hold
overlay state at a shared representative: `registered` is what a merge consults
now, `kept` is what survives once the newest layer has been written out. -/
structure View (α : Type u) (σ : Type v) where
  shared : α → α
  overlay : σ → α → α
  registered : α → σ → Prop
  kept : α → σ → Prop

variable {α : Type u} {σ : Type v} [LinearOrder α]

/-- The view computes the components of `G` and, for each scope, those of
`H s`.  Overlay points may be stale; what matters is that a stale point and its
current shared representative lie in one overlay class, and that the scope is
recorded at that representative. -/
structure Represents (V : View α σ) (G : SimpleGraph α) (H : σ → SimpleGraph α) :
    Prop where
  shared : RootMap.Represents V.shared G
  overlayRoot : ∀ s, IsRootMap (V.overlay s)
  includes : ∀ s, G ≤ H s
  sound : ∀ s x, (H s).Reachable x (V.overlay s x)
  complete : ∀ s ⦃x y⦄, (H s).Adj x y → V.overlay s (V.shared x) = V.overlay s (V.shared y)
  coherent : ∀ s x, Touches (V.overlay s) x → V.overlay s (V.shared x) = V.overlay s x
  registered : ∀ s x, Touches (V.overlay s) x → V.registered (V.shared x) s
  kept : ∀ s x, Touches (V.overlay s) x → V.kept (V.shared x) s

/-- A view that identifies nothing represents the empty graphs. -/
theorem represents_bot {V : View α σ} (shared : V.shared = fun x => x)
    (overlay : V.overlay = fun _ x => x) : Represents V ⊥ fun _ => ⊥ := by
  have untouched : ∀ s x, ¬ Touches (V.overlay s) x := by
    rintro s x (moved | ⟨y, different, hit⟩)
    · exact moved (by rw [overlay])
    · rw [overlay] at hit
      exact different hit
  refine ⟨?_, fun s => ?_, fun s => le_rfl, fun s x => ?_, fun s x y adjacent => ?_,
    fun s x touched => absurd touched (untouched s x),
    fun s x touched => absurd touched (untouched s x),
    fun s x touched => absurd touched (untouched s x)⟩
  · rw [shared]
    exact RootMap.represents_bot
  · rw [overlay]
    exact isRootMap_id
  · rw [overlay]
  · exact absurd adjacent (by simp)

namespace Represents

variable {V V' : View α σ} {G G' : SimpleGraph α} {H H' : σ → SimpleGraph α}

theorem reachable_root (represents : Represents V G H) (s : σ) (x : α) :
    (H s).Reachable x (V.overlay s (V.shared x)) :=
  ((represents.shared.sound x).mono (represents.includes s)).trans
    (represents.sound s (V.shared x))

/-- A scope's answer is the least point of the component it sees. -/
theorem isLeast (represents : Represents V G H) (s : σ) (x : α) :
    IsLeast {y | (H s).Reachable x y} (V.overlay s (V.shared x)) := by
  refine ⟨represents.reachable_root s x, fun y path => ?_⟩
  have same : V.overlay s (V.shared x) = V.overlay s (V.shared y) :=
    eq_of_reachable (f := fun z => V.overlay s (V.shared z)) (represents.complete s) path
  rw [same]
  exact ((represents.overlayRoot s).le_self _).trans (represents.shared.rootMap.le_self y)

theorem eq_iff_reachable (represents : Represents V G H) (s : σ) (x y : α) :
    V.overlay s (V.shared x) = V.overlay s (V.shared y) ↔ (H s).Reachable x y := by
  constructor
  · intro same
    have back : (H s).Reachable (V.overlay s (V.shared x)) y := by
      rw [same]
      exact (represents.reachable_root s y).symm
    exact (represents.reachable_root s x).trans back
  · exact eq_of_reachable (f := fun z => V.overlay s (V.shared z)) (represents.complete s)

/-- The overlay image of a current representative is touched, unless the
overlay does not know the representative at all. -/
theorem touches_overlay_or_eq (s : σ) (x : α) :
    Touches (V.overlay s) (V.overlay s x) ∨ V.overlay s x = x := by
  by_cases fixed : V.overlay s x = x
  · exact Or.inr fixed
  · exact Or.inl (touches_root_of_moved fixed)

/-- A point that a link in an overlay touches is already known to the overlay, or
it is one of the two ends. -/
theorem touches_link_overlay {s : σ} {a b x : α} (touched : Touches (link (V.overlay s) a b) x) :
    Touches (V.overlay s) x ∨ x = a ∨ x = b := by
  rcases touches_link touched with old | rfl | rfl
  · exact Or.inl old
  · rcases touches_overlay_or_eq (V := V) s a with old | fixed
    · exact Or.inl old
    · exact Or.inr (Or.inl fixed)
  · rcases touches_overlay_or_eq (V := V) s b with old | fixed
    · exact Or.inl old
    · exact Or.inr (Or.inr fixed)

/-- With a point, its current representative is known to the overlay. -/
theorem touches_shared (represents : Represents V G H) {s : σ} {x : α}
    (touched : Touches (V.overlay s) x) : Touches (V.overlay s) (V.shared x) := by
  by_cases fixed : V.shared x = x
  · rw [fixed]
    exact touched
  · have coherent := represents.coherent s x touched
    by_cases root : V.overlay s (V.shared x) = V.shared x
    · rw [root] at coherent
      have moved : V.overlay s x ≠ x := by
        rw [← coherent]
        exact fixed
      rw [coherent]
      exact touches_root_of_moved moved
    · exact touches_of_moved root

/-- The overlay class of a current representative is itself led by one. -/
theorem shared_overlay (represents : Represents V G H) (s : σ) {x : α}
    (live : V.shared x = x) : V.shared (V.overlay s x) = V.overlay s x := by
  rcases touches_overlay_or_eq (V := V) s x with touched | fixed
  · have coherent := represents.coherent s _ touched
    rw [(represents.overlayRoot s).idem] at coherent
    apply le_antisymm (represents.shared.rootMap.le_self _)
    calc
      V.overlay s x = V.overlay s (V.shared (V.overlay s x)) := coherent.symm
      _ ≤ V.shared (V.overlay s x) := (represents.overlayRoot s).le_self _
  · rw [fixed, live]

/-- Only the two records may change when state moves between layers: it is
enough that they still cover the touched points. -/
theorem rerecord (represents : Represents V G H) (shared : V'.shared = V.shared)
    (overlay : V'.overlay = V.overlay)
    (registered : ∀ s x, Touches (V.overlay s) x → V'.registered (V.shared x) s)
    (kept : ∀ s x, Touches (V.overlay s) x → V'.kept (V.shared x) s) :
    Represents V' G H := by
  obtain ⟨shared', overlay', registered', kept'⟩ := V'
  obtain rfl : shared' = V.shared := shared
  obtain rfl : overlay' = V.overlay := overlay
  exact ⟨represents.shared, represents.overlayRoot, represents.includes, represents.sound,
    represents.complete, represents.coherent, registered, kept⟩

/-! ## A new edge inside one scope -/

/-- What a scoped edge between `u` and `v` does to the view: the overlay of `s`
links the two shared representatives, and both are recorded. -/
structure ScopedStep (V V' : View α σ) (s : σ) (u v : α) : Prop where
  shared : V'.shared = V.shared
  overlay : V'.overlay s = link (V.overlay s) (V.shared u) (V.shared v)
  others : ∀ t, t ≠ s → V'.overlay t = V.overlay t
  registered : ∀ x t, V.registered x t → V'.registered x t
  registeredLeft : V'.registered (V.shared u) s
  registeredRight : V'.registered (V.shared v) s
  kept : ∀ x t, V.kept x t → V'.kept x t
  keptLink : V.overlay s (V.shared u) ≠ V.overlay s (V.shared v) →
    V'.kept (V.shared (V.overlay s (V.shared u))) s ∧
      V'.kept (V.shared (V.overlay s (V.shared v))) s

theorem scopedStep (represents : Represents V G H) {s : σ} {u v : α}
    (step : ScopedStep V V' s u v) (grows : H s ≤ H' s) (joined : (H' s).Reachable u v)
    (edges : ∀ ⦃x y⦄, (H' s).Adj x y → (H s).Adj x y ∨ x = u ∧ y = v ∨ x = v ∧ y = u)
    (others : ∀ t, t ≠ s → H' t = H t) : Represents V' G H' := by
  have idem := represents.shared.rootMap.idem
  have touchedCases : ∀ x, Touches (V'.overlay s) x →
      Touches (V.overlay s) x ∨ x = V.shared u ∨ x = V.shared v := by
    intro x touched
    rw [step.overlay] at touched
    exact touches_link_overlay touched
  refine ⟨?_, fun t => ?_, fun t => ?_, fun t x => ?_, fun t x y adjacent => ?_,
    fun t x touched => ?_, fun t x touched => ?_, fun t x touched => ?_⟩
  · rw [step.shared]
    exact represents.shared
  · by_cases other : t = s
    · subst other
      rw [step.overlay]
      exact (represents.overlayRoot t).link _ _
    · rw [step.others t other]
      exact represents.overlayRoot t
  · by_cases other : t = s
    · subst other
      exact (represents.includes t).trans grows
    · rw [others t other]
      exact represents.includes t
  · by_cases other : t = s
    · subst other
      rw [step.overlay]
      have rootsJoined : (H' t).Reachable (V.shared u) (V.shared v) := by
        have lifted : ∀ z, (H' t).Reachable z (V.shared z) := fun z =>
          (represents.shared.sound z).mono ((represents.includes t).trans grows)
        exact (lifted u).symm.trans (joined.trans (lifted v))
      exact reachable_link (fun z => (represents.sound t z).mono grows) rootsJoined x
    · rw [step.others t other, others t other]
      exact represents.sound t x
  · by_cases other : t = s
    · subst other
      rw [step.overlay, step.shared]
      rcases edges adjacent with old | ⟨rfl, rfl⟩ | ⟨rfl, rfl⟩
      · exact link_congr (represents.complete t old) _ _
      · exact link_left_eq_right _ _ _
      · exact (link_left_eq_right _ _ _).symm
    · rw [others t other] at adjacent
      rw [step.others t other, step.shared]
      exact represents.complete t adjacent
  · by_cases other : t = s
    · subst other
      rw [step.shared, step.overlay]
      rcases touchedCases x touched with old | rfl | rfl
      · exact link_congr (represents.coherent t x old) _ _
      · rw [idem]
      · rw [idem]
    · rw [step.others t other] at touched ⊢
      rw [step.shared]
      exact represents.coherent t x touched
  · rw [step.shared]
    by_cases other : t = s
    · subst other
      rcases touchedCases x touched with old | rfl | rfl
      · exact step.registered _ _ (represents.registered t x old)
      · rw [idem]
        exact step.registeredLeft
      · rw [idem]
        exact step.registeredRight
    · rw [step.others t other] at touched
      exact step.registered _ _ (represents.registered t x touched)
  · rw [step.shared]
    by_cases other : t = s
    · subst other
      by_cases same : V.overlay t (V.shared u) = V.overlay t (V.shared v)
      · rw [step.overlay, link_eq_self same] at touched
        exact step.kept _ _ (represents.kept t x touched)
      · rw [step.overlay] at touched
        rcases touches_link touched with old | rfl | rfl
        · exact step.kept _ _ (represents.kept t x old)
        · exact (step.keptLink same).1
        · exact (step.keptLink same).2
    · rw [step.others t other] at touched
      exact step.kept _ _ (represents.kept t x touched)

/-! ## A new shared edge -/

/-- What a shared edge between `u` and `v` does to the view.  `child` is the
representative that is absorbed and `parent` the one that survives; every scope
registered at `child` links the two in its overlay and is recorded at
`parent`. -/
structure SharedStep (V V' : View α σ) (u v child parent : α) : Prop where
  distinct : parent < child
  roots : (V.shared u = child ∧ V.shared v = parent) ∨ (V.shared u = parent ∧ V.shared v = child)
  shared : V'.shared = link V.shared u v
  notified : ∀ s, V.registered child s → V'.overlay s = link (V.overlay s) child parent
  others : ∀ s, ¬ V.registered child s → V'.overlay s = V.overlay s
  registered : ∀ x s, x ≠ child → V.registered x s → V'.registered x s
  registeredParent : ∀ s, V.registered child s → V'.registered parent s
  kept : ∀ x s, x ≠ child → V.kept x s → V'.kept x s
  keptLink : ∀ s, V.registered child s → V.overlay s child ≠ V.overlay s parent →
    V'.kept (V'.shared (V.overlay s child)) s ∧ V'.kept (V'.shared (V.overlay s parent)) s

namespace SharedStep

variable {u v child parent : α}

section Step

variable (step : SharedStep V V' u v child parent)

include step

theorem fixedChild (represents : Represents V G H) : V.shared child = child := by
  rcases step.roots with ⟨rfl, -⟩ | ⟨-, rfl⟩ <;> exact represents.shared.rootMap.idem _

theorem fixedParent (represents : Represents V G H) : V.shared parent = parent := by
  rcases step.roots with ⟨-, rfl⟩ | ⟨rfl, -⟩ <;> exact represents.shared.rootMap.idem _

/-- The shared root map after the step, read off the old one. -/
theorem shared_apply (x : α) : V'.shared x = if V.shared x = child then parent else V.shared x := by
  have order := step.distinct
  rw [step.shared]
  rcases step.roots with ⟨left, right⟩ | ⟨left, right⟩
  · simp [link, left, right, max_eq_left order.le, min_eq_right order.le]
  · simp [link, left, right, max_eq_right order.le, min_eq_left order.le]

theorem shared_of_absorbed {x : α} (absorbed : V.shared x = child) : V'.shared x = parent := by
  rw [step.shared_apply, if_pos absorbed]

theorem shared_of_ne {x : α} (other : V.shared x ≠ child) : V'.shared x = V.shared x := by
  rw [step.shared_apply, if_neg other]

/-- In a notified scope the absorbed and the surviving representative are one
overlay class, so it does not matter through which of them a point resolves. -/
theorem overlay_shared {s : σ} (notified : V.registered child s) (x : α) :
    V'.overlay s (V'.shared x) = V'.overlay s (V.shared x) := by
  by_cases absorbed : V.shared x = child
  · rw [step.shared_of_absorbed absorbed, absorbed, step.notified s notified]
    exact (link_left_eq_right _ _ _).symm
  · rw [step.shared_of_ne absorbed]

/-- A scope that is not registered at `child` has never used it as an overlay
point. -/
theorem not_touches_child (represents : Represents V G H) {s : σ}
    (silent : ¬ V.registered child s) :
    ¬ Touches (V.overlay s) child := by
  intro touched
  have recorded := represents.registered s child touched
  rw [step.fixedChild represents] at recorded
  exact silent recorded

theorem touched_cases {s : σ} (notified : V.registered child s) {x : α}
    (touched : Touches (V'.overlay s) x) : Touches (V.overlay s) x ∨ x = child ∨ x = parent := by
  rw [step.notified s notified] at touched
  exact touches_link_overlay touched

end Step

/-- In a scope that is not registered at `child`, nothing the overlay knows is
absorbed. -/
theorem shared_ne_child (represents : Represents V G H) {s : σ} {x : α}
    (silent : ¬ V.registered child s) (touched : Touches (V.overlay s) x) :
    V.shared x ≠ child := by
  rintro rfl
  exact silent (represents.registered s x touched)

section Step

variable (step : SharedStep V V' u v child parent) (represents : Represents V G H)

include step represents

/-- After the step the surviving representative is on the durable record of
every notified scope whose overlay knows either representative. -/
theorem kept_parent {s : σ} (notified : V.registered child s)
    (known : Touches (V.overlay s) parent ∨ V.overlay s child ≠ V.overlay s parent) :
    V'.kept parent s := by
  have fixed := step.fixedParent represents
  have apart : parent ≠ child := ne_of_lt step.distinct
  have ofTouched : Touches (V.overlay s) parent → V'.kept parent s := by
    intro touched
    have old := represents.kept s parent touched
    rw [fixed] at old
    exact step.kept parent s apart old
  rcases known with touched | different
  · exact ofTouched touched
  · by_cases alone : V.overlay s parent = parent
    · have recorded := (step.keptLink s notified different).2
      rwa [alone, step.shared_of_ne (by rw [fixed]; exact apart), fixed] at recorded
    · exact ofTouched (touches_of_moved alone)

/-- Every notified scope is on the durable record at the surviving representative. -/
theorem kept_parent_of_notified {s : σ} (notified : V.registered child s) : V'.kept parent s := by
  apply step.kept_parent represents notified
  by_cases different : V.overlay s child = V.overlay s parent
  · by_cases fixed : V.overlay s parent = parent
    · exact Or.inl (Or.inr ⟨child, ne_of_gt step.distinct, different.trans fixed⟩)
    · exact Or.inl (touches_of_moved fixed)
  · exact Or.inr different

/-- Points that a scope has put together stay together. -/
theorem complete {s : σ} {x y : α} (before : V.overlay s (V.shared x) = V.overlay s (V.shared y)) :
    V'.overlay s (V'.shared x) = V'.overlay s (V'.shared y) := by
  by_cases notified : V.registered child s
  · rw [step.overlay_shared notified, step.overlay_shared notified, step.notified s notified]
    exact link_congr before _ _
  · rw [step.others s notified]
    have alone := step.not_touches_child represents notified
    -- `child` is alone in its overlay class, so both ends resolved to it or
    -- neither did
    by_cases absorbed : V.shared x = child
    · rw [absorbed] at before
      have same := eq_of_root_eq_of_not_touches alone before.symm
      rw [step.shared_of_absorbed absorbed, step.shared_of_absorbed same]
    · by_cases absorbed' : V.shared y = child
      · rw [absorbed'] at before
        exact absurd (eq_of_root_eq_of_not_touches alone before) absorbed
      · rw [step.shared_of_ne absorbed, step.shared_of_ne absorbed']
        exact before

theorem coherent {s : σ} {x : α} (touched : Touches (V'.overlay s) x) :
    V'.overlay s (V'.shared x) = V'.overlay s x := by
  by_cases notified : V.registered child s
  · rw [step.overlay_shared notified]
    rcases step.touched_cases notified touched with old | rfl | rfl
    · rw [step.notified s notified]
      exact link_congr (represents.coherent s x old) _ _
    · rw [step.fixedChild represents]
    · rw [step.fixedParent represents]
  · rw [step.others s notified] at touched ⊢
    rw [step.shared_of_ne (shared_ne_child represents notified touched)]
    exact represents.coherent s x touched

/-- A record that holds every touched point, and is carried over from all points but
the absorbed one to the surviving one, holds every touched point after the step. -/
theorem recorded {record record' : α → σ → Prop}
    (before : ∀ s x, Touches (V.overlay s) x → record (V.shared x) s)
    (carried : ∀ x s, x ≠ child → record x s → record' x s)
    (atParent : ∀ s, V.registered child s → record' parent s) {s : σ} {x : α}
    (touched : Touches (V'.overlay s) x) : record' (V'.shared x) s := by
  by_cases notified : V.registered child s
  · by_cases absorbed : V.shared x = child
    · rw [step.shared_of_absorbed absorbed]
      exact atParent s notified
    · rw [step.shared_of_ne absorbed]
      rcases step.touched_cases notified touched with old | rfl | rfl
      · exact carried _ s absorbed (before s x old)
      · exact absurd (step.fixedChild represents) absorbed
      · rw [step.fixedParent represents]
        exact atParent s notified
  · rw [step.others s notified] at touched
    have other := shared_ne_child represents notified touched
    rw [step.shared_of_ne other]
    exact carried _ s other (before s x touched)

end Step

end SharedStep

/-- Recording a shared edge and notifying the registered scopes keeps every
scope's components right. -/
theorem sharedStep (represents : Represents V G H) {u v child parent : α}
    (step : SharedStep V V' u v child parent) (grows : G ≤ G') (scopeGrows : ∀ s, H s ≤ H' s)
    (includes : ∀ s, G' ≤ H' s) (joined : G'.Reachable u v)
    (edges : ∀ ⦃x y⦄, G'.Adj x y → G.Adj x y ∨ x = u ∧ y = v ∨ x = v ∧ y = u)
    (scopeEdges : ∀ s ⦃x y⦄, (H' s).Adj x y →
      (H s).Adj x y ∨ x = u ∧ y = v ∨ x = v ∧ y = u) :
    Represents V' G' H' := by
  have shared' : RootMap.Represents V'.shared G' := by
    rw [step.shared]
    exact represents.shared.link grows joined edges
  have rootsJoined : ∀ s, (H' s).Reachable child parent := by
    intro s
    have lifted : ∀ z, (H' s).Reachable z (V.shared z) := fun z =>
      (represents.shared.sound z).mono (grows.trans (includes s))
    have ends : (H' s).Reachable (V.shared u) (V.shared v) :=
      (lifted u).symm.trans ((joined.mono (includes s)).trans (lifted v))
    rcases step.roots with ⟨left, right⟩ | ⟨left, right⟩ <;> rw [left, right] at ends
    · exact ends
    · exact ends.symm
  have endsAgree : V'.shared u = V'.shared v := by
    rw [step.shared]
    exact link_left_eq_right _ _ _
  refine ⟨shared', fun s => ?_, includes, fun s x => ?_, fun s x y adjacent => ?_,
    fun s x => step.coherent represents,
    fun s x => step.recorded represents represents.registered step.registered
      step.registeredParent,
    fun s x => step.recorded represents represents.kept step.kept
      fun _ => step.kept_parent_of_notified represents⟩
  · by_cases notified : V.registered child s
    · rw [step.notified s notified]
      exact (represents.overlayRoot s).link _ _
    · rw [step.others s notified]
      exact represents.overlayRoot s
  · have old : ∀ z, (H' s).Reachable z (V.overlay s z) := fun z =>
      (represents.sound s z).mono (scopeGrows s)
    by_cases notified : V.registered child s
    · rw [step.notified s notified]
      exact reachable_link old (rootsJoined s) x
    · rw [step.others s notified]
      exact old x
  · rcases scopeEdges s adjacent with old | ⟨rfl, rfl⟩ | ⟨rfl, rfl⟩
    · exact step.complete represents (represents.complete s old)
    · rw [endsAgree]
    · rw [endsAgree]

end Represents

end ScopedView
