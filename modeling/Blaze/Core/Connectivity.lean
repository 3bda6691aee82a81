import Blaze.Core.ForestSteps

/-!
# Connectivity as each scope sees it

The graph a scope sees consists of the global edges and of the edges visible to
the scope.  A forest is correct for a set of events when its view computes the
components of these graphs, and applying an event keeps it correct.
-/

namespace Blaze

open RootMap ScopedView

variable {events : Set EdgeEvent} {event : EdgeEvent}

universe u

/-- The graph of all events visible in scope `s`. -/
def visibleGraph (events : Set EdgeEvent) (s : ScopeId) : SimpleGraph NodeId :=
  SimpleGraph.fromRel fun x y =>
    ∃ event ∈ events, event.visibility.VisibleIn s ∧ event.src = x ∧ event.dst = y

theorem visibleGraph_adj {s : ScopeId} {x y : NodeId} :
    (visibleGraph events s).Adj x y ↔ x ≠ y ∧ ∃ event ∈ events,
      event.visibility.VisibleIn s ∧
        (event.src = x ∧ event.dst = y ∨ event.src = y ∧ event.dst = x) := by
  rw [visibleGraph, SimpleGraph.fromRel_adj]
  constructor
  · rintro ⟨distinct, ⟨event, member, visible, ends⟩ | ⟨event, member, visible, ends⟩⟩
    · exact ⟨distinct, event, member, visible, Or.inl ends⟩
    · exact ⟨distinct, event, member, visible, Or.inr ends⟩
  · rintro ⟨distinct, event, member, visible, ends | ends⟩
    · exact ⟨distinct, Or.inl ⟨event, member, visible, ends⟩⟩
    · exact ⟨distinct, Or.inr ⟨event, member, visible, ends⟩⟩

@[simp]
theorem visibleGraph_empty (s : ScopeId) : visibleGraph ∅ s = ⊥ := by
  ext x y
  simp [visibleGraph_adj]

theorem visibleGraph_mono {events' : Set EdgeEvent} (subset : events ⊆ events') (s : ScopeId) :
    visibleGraph events s ≤ visibleGraph events' s := by
  intro x y adjacent
  obtain ⟨distinct, event, member, visible⟩ := visibleGraph_adj.mp adjacent
  exact visibleGraph_adj.mpr ⟨distinct, event, subset member, visible⟩

/-- Every scope sees the global edges. -/
theorem visibleGraph_global_le (events : Set EdgeEvent) (s : ScopeId) :
    visibleGraph events globalScope ≤ visibleGraph events s := by
  intro x y adjacent
  obtain ⟨distinct, event, member, visible, ends⟩ := visibleGraph_adj.mp adjacent
  rw [Visibility.visibleIn_globalScope] at visible
  exact visibleGraph_adj.mpr
    ⟨distinct, event, member, Visibility.visibleIn_of_global visible s, ends⟩

/-- A new event adds its edge to the scopes that see it. -/
theorem visibleGraph_insert (event : EdgeEvent) (events : Set EdgeEvent) (s : ScopeId) :
    visibleGraph (insert event events) s =
      if event.visibility.VisibleIn s then
        visibleGraph events s ⊔ SimpleGraph.edge event.src event.dst
      else
        visibleGraph events s := by
  ext x y
  split
  · next visible =>
      simp only [SimpleGraph.sup_adj, visibleGraph_adj, SimpleGraph.edge_adj,
        Set.mem_insert_iff, exists_eq_or_imp, visible, true_and]
      rw [@eq_comm _ x event.src, @eq_comm _ y event.dst, @eq_comm _ x event.dst,
        @eq_comm _ y event.src, and_or_left, or_comm, @and_comm (event.dst = x),
        @and_comm (_ ∨ _) (x ≠ y)]
  · next hidden =>
      simp only [visibleGraph_adj, Set.mem_insert_iff, exists_eq_or_imp, hidden, false_and,
        false_or]

theorem reachable_of_event (member : event ∈ events) {s : ScopeId}
    (visible : event.visibility.VisibleIn s) :
    (visibleGraph events s).Reachable event.src event.dst := by
  by_cases same : event.src = event.dst
  · rw [same]
  · exact (visibleGraph_adj.mpr ⟨same, event, member, visible, Or.inl ⟨rfl, rfl⟩⟩).reachable

/-- The forest answers, for every scope, from the components of the graph of
`events`. -/
structure ScopedForest.Represents {β : Type u} [RoutingBase β] (f : ScopedForest β)
    (events : Set EdgeEvent) : Prop where
  wellFormed : f.tier.WellFormed
  view : ScopedView.Represents f.tier.view (visibleGraph events globalScope)
    (visibleGraph events)

namespace ScopedForest

variable {β : Type u} [RoutingBase β]

/-- An edge inside one shared component may be added without touching the
view. -/
theorem represents_of_shared_eq {V : View NodeId ScopeId}
    (represents : ScopedView.Represents V (visibleGraph events globalScope) (visibleGraph events))
    (isGlobal : event.visibility.normalize = .global)
    (same : V.shared event.src = V.shared event.dst) :
    ScopedView.Represents V (visibleGraph (insert event events) globalScope)
      (visibleGraph (insert event events)) := by
  have visible := Visibility.visibleIn_of_global isGlobal
  have grown : ∀ s, visibleGraph (insert event events) s =
      visibleGraph events s ⊔ SimpleGraph.edge event.src event.dst := fun s => by
    rw [visibleGraph_insert, if_pos (visible s)]
  have edgeAgrees : ∀ {x y}, (SimpleGraph.edge event.src event.dst).Adj x y →
      V.shared x = V.shared y := by
    intro x y adjacent
    rcases (SimpleGraph.edge_adj ..).mp adjacent with ⟨⟨rfl, rfl⟩ | ⟨rfl, rfl⟩, -⟩
    · exact same
    · exact same.symm
  have grows : ∀ s, visibleGraph events s ≤ visibleGraph (insert event events) s :=
    visibleGraph_mono (Set.subset_insert event events)
  exact
    { shared :=
        { rootMap := represents.shared.rootMap
          sound := fun x => (represents.shared.sound x).mono (grows _)
          complete := fun x y adjacent => by
            rw [grown, SimpleGraph.sup_adj] at adjacent
            rcases adjacent with old | new
            · exact represents.shared.complete old
            · exact edgeAgrees new }
      overlayRoot := represents.overlayRoot
      includes := visibleGraph_global_le _
      sound := fun s x => (represents.sound s x).mono (grows s)
      complete := fun s x y adjacent => by
        rw [grown, SimpleGraph.sup_adj] at adjacent
        rcases adjacent with old | new
        · exact represents.complete s old
        · rw [edgeAgrees new]
      coherent := represents.coherent
      registered := represents.registered
      kept := represents.kept }

theorem represents_applyGlobal (f : ScopedForest β) (represents : f.Represents events)
    (isGlobal : event.visibility.normalize = .global) :
    (f.applyGlobal event.src event.dst).Represents (insert event events) := by
  by_cases same : f.tier.view.shared event.src = f.tier.view.shared event.dst
  · obtain ⟨wellFormed, viewEq⟩ := applyGlobal_of_eq f represents.wellFormed _ _ same
    refine ⟨wellFormed, ?_⟩
    rw [viewEq]
    exact represents_of_shared_eq represents.view isGlobal same
  · obtain ⟨wellFormed, step⟩ := applyGlobal_step f represents.wellFormed _ _ same
    have visible := Visibility.visibleIn_of_global isGlobal
    have grown : ∀ s, visibleGraph (insert event events) s =
        visibleGraph events s ⊔ SimpleGraph.edge event.src event.dst := fun s => by
      rw [visibleGraph_insert, if_pos (visible s)]
    have grows : ∀ s, visibleGraph events s ≤ visibleGraph (insert event events) s :=
      visibleGraph_mono (Set.subset_insert event events)
    have edges : ∀ s ⦃x y⦄, (visibleGraph (insert event events) s).Adj x y →
        (visibleGraph events s).Adj x y ∨ x = event.src ∧ y = event.dst ∨
          x = event.dst ∧ y = event.src := by
      intro s x y adjacent
      rw [grown, SimpleGraph.sup_adj, SimpleGraph.edge_adj] at adjacent
      tauto
    exact ⟨wellFormed, represents.view.sharedStep step (grows _) grows
      (visibleGraph_global_le _) (reachable_of_event (Set.mem_insert _ _) (visible _))
      (edges _) edges⟩

/-- The scope loop of a scoped event, over graphs that need not come from
events: each listed scope's graph gains the edge. -/
theorem foldl_linkScoped (f : ScopedForest β) (wellFormed : f.tier.WellFormed)
    {G : SimpleGraph NodeId} {H : ScopeId → SimpleGraph NodeId}
    (represents : ScopedView.Represents f.tier.view G H) (u v : NodeId)
    (scopes : List ScopeId) {ru rv : NodeId} (resolvedU : f.tier.view.shared u = ru)
    (resolvedV : f.tier.view.shared v = rv) :
    (scopes.foldl (linkScoped ru rv) f).tier.WellFormed ∧
      (scopes.foldl (linkScoped ru rv) f).tier.base = f.tier.base ∧
      ScopedView.Represents (scopes.foldl (linkScoped ru rv) f).tier.view G
        (fun s => if s ∈ scopes then H s ⊔ SimpleGraph.edge u v else H s) := by
  induction scopes generalizing f H with
  | nil => simpa using ⟨wellFormed, represents⟩
  | cons s scopes ih =>
    obtain ⟨wellFormed', step⟩ := linkScoped_step f wellFormed s u v
    rw [resolvedU, resolvedV] at wellFormed' step
    let H' : ScopeId → SimpleGraph NodeId :=
      fun t => if t = s then H t ⊔ SimpleGraph.edge u v else H t
    have joined : (H' s).Reachable u v := by
      by_cases same : u = v
      · rw [same]
      · have adjacent : (H' s).Adj u v := by
          simp [H', SimpleGraph.edge_adj, same]
        exact adjacent.reachable
    have represents' : ScopedView.Represents (linkScoped ru rv f s).tier.view G H' := by
      refine represents.scopedStep step ?_ joined ?_ ?_
      · simp [H']
      · intro x y adjacent
        simp only [H', if_true, SimpleGraph.sup_adj, SimpleGraph.edge_adj] at adjacent
        tauto
      · intro t other
        simp [H', other]
    obtain ⟨wellFormedRest, baseRest, represents''⟩ :=
      ih (linkScoped ru rv f s) wellFormed' represents' (by rw [step.shared, resolvedU])
        (by rw [step.shared, resolvedV])
    refine ⟨wellFormedRest, ?_, ?_⟩
    · exact baseRest.trans (linkScoped_base f wellFormed ru rv s)
    have sameGraphs : (fun t => if t ∈ s :: scopes then H t ⊔ SimpleGraph.edge u v else H t) =
        fun t => if t ∈ scopes then H' t ⊔ SimpleGraph.edge u v else H' t := by
      funext t
      by_cases now : t = s <;> by_cases later : t ∈ scopes <;>
        simp [H', now, later]
    rw [sameGraphs]
    exact represents''

theorem represents_applyScoped (f : ScopedForest β) (represents : f.Represents events)
    {scopes : List ScopeId} (isScoped : event.visibility.normalize = .scopedTo scopes) :
    (f.applyScoped event.src event.dst scopes).Represents (insert event events) ∧
      (f.applyScoped event.src event.dst scopes).tier.base = f.tier.base := by
  obtain ⟨foundU, foundV, compressed⟩ :=
    sharedRoots_resolve represents.wellFormed event.src event.dst
  unfold applyScoped
  dsimp only
  rw [foundU, foundV]
  generalize ((f.tier.sharedRoot event.src true).1.sharedRoot event.dst true).1 = t at *
  have started : ScopedView.Represents (f.setTier t).tier.view
      (visibleGraph events globalScope) (visibleGraph events) := by
    change ScopedView.Represents t.view _ _
    rw [compressed.view_eq]
    exact represents.view
  obtain ⟨wellFormed, baseEq, represents'⟩ := foldl_linkScoped (f.setTier t)
    (compressed.wellFormed represents.wellFormed) started event.src event.dst scopes
    (congrFun (congrArg View.shared compressed.view_eq) _)
    (congrFun (congrArg View.shared compressed.view_eq) _)
  refine ⟨⟨wellFormed, ?_⟩, baseEq.trans compressed.base_eq⟩
  have globalSame : visibleGraph (insert event events) globalScope =
      visibleGraph events globalScope := by
    have hidden : ¬ event.visibility.VisibleIn globalScope := by
      rw [Visibility.visibleIn_globalScope, isScoped]
      simp
    rw [visibleGraph_insert, if_neg hidden]
  have scopesGrown : visibleGraph (insert event events) = fun s =>
      if s ∈ scopes then visibleGraph events s ⊔ SimpleGraph.edge event.src event.dst
      else visibleGraph events s := by
    funext s
    rw [visibleGraph_insert]
    simp only [Visibility.visibleIn_iff_mem isScoped]
  rw [globalSame, scopesGrown]
  exact represents'

/-- Correctness is about the tier; the counters do not matter. -/
theorem Represents.of_tier_eq {f f' : ScopedForest β} (represents : f.Represents events)
    (same : f'.tier = f.tier) : f'.Represents events :=
  ⟨by rw [same]; exact represents.wellFormed, by rw [same]; exact represents.view⟩

/-- Applying an event keeps the forest correct. -/
theorem represents_apply (f : ScopedForest β) (represents : f.Represents events)
    (event : EdgeEvent) :
    (f.apply event).Represents (insert event events) := by
  unfold apply
  cases normal : event.visibility.normalize with
  | global =>
    have applied := represents_applyGlobal f represents normal
    dsimp only
    generalize f.applyGlobal event.src event.dst = f' at applied
    exact applied.of_tier_eq rfl
  | scopedTo scopes =>
    have applied := (represents_applyScoped f represents normal).1
    dsimp only
    generalize f.applyScoped event.src event.dst scopes = f' at applied
    exact applied.of_tier_eq rfl

/-- Applying an event leaves the base alone. -/
theorem apply_base (f : ScopedForest β) (represents : f.Represents events) (event : EdgeEvent) :
    (f.apply event).tier.base = f.tier.base := by
  unfold apply
  cases normal : event.visibility.normalize with
  | global =>
    have kept := applyGlobal_base f represents.wellFormed event.src event.dst
    dsimp only
    generalize f.applyGlobal event.src event.dst = f' at kept
    exact kept
  | scopedTo scopes =>
    have kept := (represents_applyScoped f represents normal).2
    dsimp only
    generalize f.applyScoped event.src event.dst scopes = f' at kept
    exact kept

theorem foldl_insert_events (events : List EdgeEvent) (seen : Set EdgeEvent) :
    events.foldl (fun all event => insert event all) seen = seen ∪ {event | event ∈ events} := by
  induction events generalizing seen with
  | nil => simp
  | cons event events ih =>
    rw [List.foldl_cons, ih]
    ext other
    simp only [Set.mem_union, Set.mem_insert_iff, Set.mem_ofPred_eq, List.mem_cons]
    tauto

/-- Applying a whole sequence of events keeps the forest correct. -/
theorem represents_foldl_apply (events : List EdgeEvent) (f : ScopedForest β)
    {seen : Set EdgeEvent} (represents : f.Represents seen) :
    (events.foldl apply f).Represents (seen ∪ {event | event ∈ events}) := by
  rw [← foldl_insert_events]
  induction events generalizing f seen with
  | nil => exact represents
  | cons event events ih => exact ih (f.apply event) (represents_apply f represents event)

/-- Lookups change nothing but compressed paths. -/
theorem Represents.of_compressed {f f' : ScopedForest β} (represents : f.Represents events)
    (compressed : Tier.CompressedTo f.tier f'.tier) : f'.Represents events :=
  ⟨compressed.wellFormed represents.wellFormed, by
    rw [compressed.view_eq]
    exact represents.view⟩

/-- A forest without base and with an empty memtable represents no event. -/
theorem represents_empty {f : ScopedForest β} (memberIndex : Bool)
    (fresh : f.tier = ⟨none, Memtable.new memberIndex⟩) : f.Represents ∅ := by
  have rootId : (Memtable.new memberIndex).global.root = fun x => x := by
    funext x
    exact Dsu.root_trackingMembers memberIndex x
  have overlayId : (Memtable.new memberIndex).overlayRoot = fun _ x => x := by
    funext s x
    rw [Memtable.overlayRoot, Memtable.overlay_new, Dsu.root_trackingMembers]
  have shared : f.tier.view.shared = fun x => x := by
    rw [fresh]
    exact rootId
  have overlay : f.tier.view.overlay = fun _ x => x := by
    rw [fresh]
    exact overlayId
  refine ⟨⟨?_, ?_, ?_, ?_, ?_⟩, ?_⟩
  · rw [fresh]; exact RoutingBase.lawful_none
  · rw [fresh]; exact Dsu.decreasing_trackingMembers memberIndex
  · intro s
    rw [fresh, Memtable.overlay_new]
    exact Dsu.decreasing_trackingMembers memberIndex
  · rw [fresh]
    intro x moved
    exact absurd (congrFun rootId x) moved
  · rw [fresh]
    intro s x moved
    exact absurd (congrFun (congrFun overlayId s) x) moved
  · have graphs : visibleGraph ∅ = fun _ => ⊥ := funext visibleGraph_empty
    rw [graphs]
    exact ScopedView.represents_bot shared overlay

/-! ## Queries -/

/-- A query reads the composed maps and only compresses paths. -/
theorem scopeRoot_compressed (f : ScopedForest β) (wellFormed : f.tier.WellFormed)
    (s : ScopeId) (x : NodeId) :
    Tier.CompressedTo f.tier (f.scopeRoot s x).1.tier ∧
      (f.scopeRoot s x).2 =
        if s = globalScope then f.tier.view.shared x
        else f.tier.view.overlay s (f.tier.view.shared x) := by
  obtain ⟨foundShared, first⟩ := Tier.sharedRoot_spec wellFormed x false
  obtain ⟨foundOverlay, second⟩ := Tier.overlayRoot_spec (first.wellFormed wellFormed) s
    (f.tier.view.shared x) false
  unfold scopeRoot
  dsimp only
  rw [foundShared]
  by_cases isGlobal : s = globalScope
  · rw [if_pos isGlobal, if_pos isGlobal]
    exact ⟨first, rfl⟩
  · rw [if_neg isGlobal, if_neg isGlobal]
    refine ⟨first.trans second, ?_⟩
    rw [foundOverlay, first.view_eq]

theorem Represents.scopeRoot {f : ScopedForest β} (represents : f.Represents events) (s : ScopeId)
    (x : NodeId) : (f.scopeRoot s x).1.Represents events :=
  represents.of_compressed (scopeRoot_compressed f represents.wellFormed s x).1

/-- A correct forest answers with the least node of the component the scope
sees. -/
theorem Represents.isLeast_scopeRoot {f : ScopedForest β} (represents : f.Represents events)
    (s : ScopeId) (x : NodeId) :
    IsLeast {y | (visibleGraph events s).Reachable x y} (f.scopeRoot s x).2 := by
  rw [(scopeRoot_compressed f represents.wellFormed s x).2]
  split
  · next isGlobal =>
      rw [isGlobal]
      exact represents.view.shared.isLeast x
  · exact represents.view.isLeast s x

/-- Two correct forests for the same events give the same answers. -/
theorem Represents.scopeRoot_eq {γ : Type u} [RoutingBase γ] {f : ScopedForest β}
    {f' : ScopedForest γ} (represents : f.Represents events) (represents' : f'.Represents events)
    (s : ScopeId) (x : NodeId) : (f.scopeRoot s x).2 = (f'.scopeRoot s x).2 :=
  (represents.isLeast_scopeRoot s x).unique (represents'.isLeast_scopeRoot s x)

theorem Represents.connected_iff {f : ScopedForest β} (represents : f.Represents events)
    (s : ScopeId) (u v : NodeId) :
    (f.connected s u v).2 = true ↔ (visibleGraph events s).Reachable u v := by
  have leastU := represents.isLeast_scopeRoot s u
  have leastV := (represents.scopeRoot s u).isLeast_scopeRoot s v
  unfold connected
  dsimp only
  rw [decide_eq_true_eq]
  constructor
  · intro same
    rw [← same] at leastV
    exact leastU.1.trans leastV.1.symm
  · intro path
    have sameComponent : {y | (visibleGraph events s).Reachable u y} =
        {y | (visibleGraph events s).Reachable v y} := by
      ext y
      exact ⟨path.symm.trans, path.trans⟩
    rw [sameComponent] at leastU
    exact leastU.unique leastV

theorem represents_new : (new : ScopedForest β).Represents ∅ :=
  represents_empty false rfl

/-- A fresh forest that has applied any sequence of events answers every scope's
query with the least node of the component that scope sees, and connects exactly
the nodes joined by a path it sees. -/
theorem isLeast_scopeRoot_of_events (events : List EdgeEvent) (s : ScopeId) (x : NodeId) :
    IsLeast {y | (visibleGraph {event | event ∈ events} s).Reachable x y}
        ((events.foldl apply (new : ScopedForest β)).scopeRoot s x).2 ∧
      ∀ u v, ((events.foldl apply (new : ScopedForest β)).connected s u v).2 = true ↔
        (visibleGraph {event | event ∈ events} s).Reachable u v := by
  have represents := represents_foldl_apply events new (represents_new (β := β))
  rw [Set.empty_union] at represents
  exact ⟨represents.isLeast_scopeRoot s x, represents.connected_iff s⟩

end ScopedForest

end Blaze
