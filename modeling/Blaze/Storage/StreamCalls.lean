import Blaze.Storage.LineageAnswers

/-!
# The calls a sink receives

A fold streams its state to a sink, and readers search the tables that the sink
writes, so the stream has to be in order and free of repetitions.  The calls are given
here in closed form, by the nodes that they list and by the roots that lookups compose
from base and memtable.
-/

namespace Blaze

open RootMap ScopedView LayeredBase

universe u

/-- The list has exactly the nodes that are selected, each once, in strictly ascending
order. -/
structure Lists (nodes : List NodeId) (selected : NodeId → Prop) : Prop where
  ascending : nodes.Pairwise (· < ·)
  mem_iff : ∀ x, x ∈ nodes ↔ selected x

/-- Passing on the selected nodes of an ascending list. -/
theorem lists_filter {keys : List NodeId} (ascending : keys.Pairwise (· < ·))
    (selected : NodeId → Prop) [DecidablePred selected] :
    Lists (keys.filter selected) fun x => x ∈ keys ∧ selected x :=
  ⟨ascending.filter _, fun x => by simp⟩

theorem Lists.congr {nodes : List NodeId} {selected other : NodeId → Prop}
    (lists : Lists nodes selected) (same : ∀ x, selected x ↔ other x) : Lists nodes other :=
  ⟨lists.ascending, fun x => (lists.mem_iff x).trans (same x)⟩

namespace Tier

variable {β : Type u} [RoutingBase β]

/-- The shared root that base and memtable compose to. -/
def composedShared (t : Tier β) (x : NodeId) : NodeId :=
  (t.sharedRoot x false).2

/-- The overlay root that base and memtable compose to. -/
def composedOverlay (t : Tier β) (s : ScopeId) (x : NodeId) : NodeId :=
  (t.overlayRoot s x false).2

/-- An overlay pair, and the live shared roots of its two ends. -/
def pairCalls (t : Tier β) (s : ScopeId) (x : NodeId) : List SinkCall :=
  [.overlayPair x (t.composedOverlay s x), .registryEntry (t.composedShared x) s] ++
    if t.composedShared (t.composedOverlay s x) ≠ t.composedShared x then
      [.registryEntry (t.composedShared (t.composedOverlay s x)) s]
    else []

/-- The calls of a stream that lists these shared nodes, scopes and overlay nodes. -/
def streamCalls (t : Tier β) (shared : List NodeId) (scopes : List ScopeId)
    (overlay : ScopeId → List NodeId) : List SinkCall :=
  (shared.map fun x => .sharedPair x (t.composedShared x)) ++
    scopes.flatMap fun s =>
      [.scopeStart s] ++ (overlay s).flatMap (t.pairCalls s) ++ [.scopeEnd s]

variable {t : Tier β}

theorem composedShared_eq (wellFormed : t.WellFormed) : t.composedShared = t.view.shared :=
  funext fun x => (sharedRoot_spec wellFormed x false).1

theorem composedOverlay_eq (wellFormed : t.WellFormed) : t.composedOverlay = t.view.overlay :=
  funext fun s => funext fun x => (overlayRoot_spec wellFormed s x false).1

/-- A visited key gives a call when its root differs from it. -/
theorem flatMap_sharedCalls (V : View NodeId ScopeId) (keys : List NodeId) :
    keys.flatMap (sharedCalls V) =
      (keys.filter fun x => V.shared x ≠ x).map fun x => .sharedPair x (V.shared x) := by
  induction keys with
  | nil => rfl
  | cons x keys ih =>
    rw [List.flatMap_cons, ih, sharedCalls]
    by_cases moved : V.shared x ≠ x
    · rw [if_pos moved, List.filter_cons_of_pos (by simpa using moved)]
      rfl
    · rw [if_neg moved, List.filter_cons_of_neg (by simpa using moved)]
      rfl

theorem flatMap_overlayCalls (wellFormed : t.WellFormed) (s : ScopeId) (keys : List NodeId) :
    keys.flatMap (overlayCalls t.view s) =
      (keys.filter fun x => t.view.overlay s x ≠ x).flatMap (t.pairCalls s) := by
  induction keys with
  | nil => rfl
  | cons x keys ih =>
    rw [List.flatMap_cons, ih, overlayCalls]
    by_cases moved : t.view.overlay s x = x
    · rw [if_pos moved, List.filter_cons_of_neg (by simpa using moved)]
      rfl
    · rw [if_neg moved, List.filter_cons_of_pos (by simpa using moved), List.flatMap_cons,
        pairCalls, composedShared_eq wellFormed, composedOverlay_eq wellFormed]

/-- The calls for the keys that are visited, in closed form. -/
theorem calls_eq_streamCalls (wellFormed : t.WellFormed) (shared : List NodeId)
    (scopes : List ScopeId) (keys : ScopeId → List NodeId) :
    shared.flatMap (sharedCalls t.view) ++ scopes.flatMap (scopeCalls t.view keys) =
      t.streamCalls (shared.filter fun x => t.composedShared x ≠ x) scopes
        fun s => (keys s).filter fun x => t.composedOverlay s x ≠ x := by
  unfold streamCalls scopeCalls
  rw [composedShared_eq wellFormed, composedOverlay_eq wellFormed, flatMap_sharedCalls]
  simp only [flatMap_overlayCalls wellFormed]

end Tier

/-- A full stream lists the nodes that base and memtable together move, and a delta
stream those of the memtable's own keys. -/
theorem streams_list_moved_nodes {events : List EdgeEvent} {d : DiskForest}
    (lineage : Lineage events d) :
    (∃ shared scopes overlay,
      d.forest.compactInto.2 = d.forest.tier.streamCalls shared scopes overlay ∧
        Lists shared (fun x => d.forest.tier.composedShared x ≠ x) ∧
        scopes.Pairwise (· < ·) ∧
        (∀ s x, d.forest.tier.composedOverlay s x ≠ x → s ∈ scopes) ∧
        ∀ s, Lists (overlay s) fun x => d.forest.tier.composedOverlay s x ≠ x) ∧
    ∃ shared overlay,
      d.forest.tier.streamMemtable.2 =
          d.forest.tier.streamCalls shared d.forest.tier.mem.overlays.keys overlay ∧
        Lists shared (fun x =>
          x ∈ d.forest.tier.mem.global.keys ∧ d.forest.tier.composedShared x ≠ x) ∧
        d.forest.tier.mem.overlays.keys.Pairwise (· < ·) ∧
        ∀ s, Lists (overlay s) fun x =>
          x ∈ d.forest.tier.overlayKeys s ∧ d.forest.tier.composedOverlay s x ≠ x := by
  have wellFormed := lineage.settled.onDisk.represents.wellFormed
  constructor
  · refine ⟨_, _, _, (Tier.compactLocked_spec wellFormed).2.trans
      (Tier.calls_eq_streamCalls wellFormed _ _ _), ?_, ?_, ?_, ?_⟩
    · refine (lists_filter (Tier.compactSharedKeys_ascending wellFormed) _).congr fun x => ?_
      rw [Tier.composedShared_eq wellFormed, Tier.mem_compactSharedKeys wellFormed, and_self]
    · exact SortDedup.sortDedup_ascending _
    · intro s x moved
      rw [Tier.composedOverlay_eq wellFormed] at moved
      exact Tier.mem_compactScopes wellFormed moved
    · intro s
      refine (lists_filter (Tier.compactKeys_ascending wellFormed s) _).congr fun x => ?_
      rw [Tier.composedOverlay_eq wellFormed, Tier.mem_compactKeys wellFormed, and_self]
  · refine ⟨_, _, (Tier.streamMemtable_spec wellFormed).2.trans
      (Tier.calls_eq_streamCalls wellFormed _ _ _), ?_, Tier.scopeIds_ascending _, ?_⟩
    · exact lists_filter (Dsu.keys_ascending _) _
    · exact fun s => lists_filter (Tier.overlayKeys_ascending _ s) _

/-- Two folded layers: the full stream lists node 2 below node 1, then nodes 2 and 4 of
scope 7. -/
theorem streams_list_moved_nodes_foldedTwice :
    foldedTwice.forest.compactInto.2 =
        [.sharedPair 2 1, .scopeStart 7, .overlayPair 2 1, .registryEntry 1 7,
          .overlayPair 4 1, .registryEntry 4 7, .registryEntry 1 7, .scopeEnd 7] ∧
      ∃ shared scopes overlay,
        foldedTwice.forest.compactInto.2 =
            foldedTwice.forest.tier.streamCalls shared scopes overlay ∧
          Lists shared (fun x => foldedTwice.forest.tier.composedShared x ≠ x) ∧
          ∀ s, Lists (overlay s) fun x => foldedTwice.forest.tier.composedOverlay s x ≠ x := by
  obtain ⟨shared, scopes, overlay, calls, lists, -, -, each⟩ :=
    (streams_list_moved_nodes lineage_foldedTwice).1
  exact ⟨by decide +kernel, shared, scopes, overlay, calls, lists, each⟩

end Blaze
