import Blaze.Core.ForestView
import Mathlib.Data.List.TakeWhile

/-!
# What a fold streams

The streaming functions resolve every node they visit, and each lookup may
compress a path, so the tier changes while it is being emitted.  None of that is
visible: the calls a sink receives are determined by the view and by the keys
that are visited.
-/

namespace Blaze

open RootMap ScopedView

universe u

/-- The calls made for one shared key. -/
def sharedCalls (V : View NodeId ScopeId) (node : NodeId) : List SinkCall :=
  if V.shared node ≠ node then [.sharedPair node (V.shared node)] else []

/-- The calls made for one overlay key. -/
def overlayCalls (V : View NodeId ScopeId) (scope : ScopeId) (node : NodeId) : List SinkCall :=
  if V.overlay scope node = node then
    []
  else
    [.overlayPair node (V.overlay scope node), .registryEntry (V.shared node) scope] ++
      if V.shared (V.overlay scope node) ≠ V.shared node then
        [.registryEntry (V.shared (V.overlay scope node)) scope]
      else []

/-- The calls made for one scope, given the overlay keys visited in it. -/
def scopeCalls (V : View NodeId ScopeId) (keys : ScopeId → List NodeId) (scope : ScopeId) :
    List SinkCall :=
  [.scopeStart scope] ++ (keys scope).flatMap (overlayCalls V scope) ++ [.scopeEnd scope]

namespace Tier

variable {β : Type u} [RoutingBase β] {t t' : Tier β}

theorem emitShared_spec (wellFormed : t.WellFormed) (node : NodeId) :
    CompressedTo t (t.emitShared node).1 ∧ (t.emitShared node).2 = sharedCalls t.view node := by
  obtain ⟨found, compressed⟩ := sharedRoot_spec wellFormed node false
  refine ⟨compressed, ?_⟩
  unfold emitShared sharedCalls
  dsimp only
  rw [found]

theorem emitOverlay_spec (wellFormed : t.WellFormed) (scope : ScopeId) (node : NodeId) :
    CompressedTo t (t.emitOverlay scope node).1 ∧
      (t.emitOverlay scope node).2 = overlayCalls t.view scope node := by
  obtain ⟨found, first⟩ := overlayRoot_spec wellFormed scope node false
  have wellFormed₁ := first.wellFormed wellFormed
  obtain ⟨foundNode, second⟩ := sharedRoot_spec wellFormed₁ node false
  obtain ⟨foundRoot, third⟩ := sharedRoot_spec (second.wellFormed wellFormed₁)
    (t.view.overlay scope node) false
  rw [first.view_eq] at foundNode
  rw [second.view_eq, first.view_eq] at foundRoot
  unfold emitOverlay overlayCalls
  dsimp only
  rw [found]
  split
  · exact ⟨first, rfl⟩
  · have whole := first.trans (second.trans third)
    rw [foundNode, foundRoot]
    generalize (((t.overlayRoot scope node false).1.sharedRoot node false).1.sharedRoot
      (t.view.overlay scope node) false).1 = t' at whole
    exact ⟨whole, rfl⟩

/-- Emitting a list of items whose calls do not depend on compression. -/
theorem emitEach_spec {α : Type} (emit : Tier β → α → Tier β × List SinkCall)
    (calls : α → List SinkCall) (wellFormed : t.WellFormed)
    (spec : ∀ t', CompressedTo t t' → ∀ item,
      CompressedTo t' (emit t' item).1 ∧ (emit t' item).2 = calls item) (items : List α) :
    CompressedTo t (emitEach emit items t).1 ∧ (emitEach emit items t).2 = items.flatMap calls := by
  -- strengthen to every compression of `t`, which is what the loop passes on
  have general : ∀ t', CompressedTo t t' →
      CompressedTo t' (emitEach emit items t').1 ∧
        (emitEach emit items t').2 = items.flatMap calls := by
    induction items with
    | nil => exact fun t' compressed => ⟨.refl (compressed.wellFormed wellFormed), rfl⟩
    | cons item items ih =>
      intro t' compressed
      obtain ⟨first, callsFirst⟩ := spec t' compressed item
      obtain ⟨rest, callsRest⟩ := ih (emit t' item).1 (compressed.trans first)
      refine ⟨first.trans rest, ?_⟩
      simp only [emitEach, callsFirst, callsRest, List.flatMap_cons]
  exact general t (.refl wellFormed)

omit [RoutingBase β] in
theorem overlayKeys_eq (t : Tier β) (s : ScopeId) : t.overlayKeys s = (t.mem.overlay s).keys := by
  unfold overlayKeys
  cases stored : t.mem.overlays[s]? with
  | none =>
    rw [Memtable.overlay_of_none stored]
    rfl
  | some d =>
    rw [Memtable.overlay_of_some stored]
    rfl

theorem mem_overlayKeys_iff (wellFormed : t.WellFormed) (s : ScopeId) (x : NodeId) :
    x ∈ t.overlayKeys s ↔ t.mem.overlayRoot s x ≠ x := by
  rw [overlayKeys_eq, Dsu.mem_keys_iff (wellFormed.overlays s)]
  rfl

omit [RoutingBase β] in
theorem overlayKeys_ascending (t : Tier β) (s : ScopeId) : (t.overlayKeys s).Pairwise (· < ·) := by
  rw [overlayKeys_eq]
  exact Dsu.keys_ascending _

theorem CompressedTo.overlayKeys_eq (compressed : CompressedTo t t') (wellFormed : t.WellFormed) :
    t'.overlayKeys = t.overlayKeys := by
  funext s
  refine List.Pairwise.eq_of_mem_iff (overlayKeys_ascending t' s) (overlayKeys_ascending t s)
    fun x => ?_
  rw [mem_overlayKeys_iff (compressed.wellFormed wellFormed), mem_overlayKeys_iff wellFormed,
    compressed.overlayRoot_eq]

omit [RoutingBase β] in
theorem scopeIds_ascending (t : Tier β) : t.mem.overlays.keys.Pairwise (· < ·) :=
  Std.TreeMap.ordered_keys.imp fun before => Nat.compare_eq_lt.mp before

omit [RoutingBase β] in
theorem CompressedTo.scopeIds_eq (compressed : CompressedTo t t') :
    t'.mem.overlays.keys = t.mem.overlays.keys := by
  refine List.Pairwise.eq_of_mem_iff (scopeIds_ascending t') (scopeIds_ascending t) fun s => ?_
  rw [Std.TreeMap.mem_keys, Std.TreeMap.mem_keys, compressed.mem_overlays]

theorem emitScope_spec (wellFormed : t.WellFormed) {keys : Tier β → ScopeId → List NodeId}
    (scope : ScopeId) :
    CompressedTo t (t.emitScope keys scope).1 ∧
      (t.emitScope keys scope).2 = scopeCalls t.view (keys t) scope := by
  obtain ⟨compressed, calls⟩ :=
    emitEach_spec (emitOverlay scope) (overlayCalls t.view scope) wellFormed
    (fun t' step node => by
      rw [← step.view_eq]
      exact emitOverlay_spec (step.wellFormed wellFormed) scope node)
    (keys t scope)
  refine ⟨compressed, ?_⟩
  unfold emitScope scopeCalls
  dsimp only
  rw [calls]

/-- A delta stream lists the memtable's keys. -/
theorem streamMemtable_spec (wellFormed : t.WellFormed) :
    CompressedTo t t.streamMemtable.1 ∧
      t.streamMemtable.2 = t.mem.global.keys.flatMap (sharedCalls t.view) ++
        t.mem.overlays.keys.flatMap (scopeCalls t.view t.overlayKeys) := by
  obtain ⟨first, sharedEq⟩ := emitEach_spec emitShared (sharedCalls t.view) wellFormed
    (fun t' step node => by
      rw [← step.view_eq]
      exact emitShared_spec (step.wellFormed wellFormed) node)
    t.mem.global.keys
  have wellFormed₁ := first.wellFormed wellFormed
  obtain ⟨second, overlaysEq⟩ :=
    emitEach_spec (emitScope overlayKeys) (scopeCalls t.view t.overlayKeys) wellFormed₁
    (fun t' step scope => by
      have whole := first.trans step
      rw [← whole.view_eq, ← whole.overlayKeys_eq wellFormed]
      exact emitScope_spec (whole.wellFormed wellFormed) scope)
    (emitEach emitShared t.mem.global.keys t).1.mem.overlays.keys
  refine ⟨first.trans second, ?_⟩
  unfold streamMemtable
  dsimp only
  rw [sharedEq, overlaysEq, first.scopeIds_eq]

/-! ## Compaction -/

theorem mem_joinKeys {mem base : List NodeId} (memAscending : mem.Pairwise (· < ·)) (x : NodeId) :
    x ∈ joinKeys mem base ↔ x ∈ mem ∨ x ∈ base := by
  induction base generalizing mem with
  | nil => simp [joinKeys]
  | cons k base ih =>
    have split := List.takeWhile_append_dropWhile (p := (· < k)) (l := mem)
    have restAscending : (mem.dropWhile (· < k)).Pairwise (· < ·) :=
      memAscending.sublist (List.dropWhile_sublist _)
    have memSplit : x ∈ mem ↔ x ∈ mem.takeWhile (· < k) ∨ x ∈ mem.dropWhile (· < k) := by
      conv_lhs => rw [← split]
      exact List.mem_append
    simp only [joinKeys, List.mem_append, List.mem_cons]
    split_ifs with equal
    · cases rest : mem.dropWhile (· < k) with
      | nil => simp [rest] at equal
      | cons head tail =>
        rw [rest] at restAscending equal memSplit
        simp only [List.head?_cons, Option.some.injEq] at equal
        subst equal
        rw [List.tail_cons, ih restAscending.of_cons, memSplit, List.mem_cons]
        tauto
    · rw [ih restAscending, memSplit]
      tauto

theorem joinKeys_ascending {mem base : List NodeId} (memAscending : mem.Pairwise (· < ·))
    (baseAscending : base.Pairwise (· < ·)) : (joinKeys mem base).Pairwise (· < ·) := by
  induction base generalizing mem with
  | nil => exact memAscending
  | cons k base ih =>
    obtain ⟨kLess, baseTail⟩ := List.pairwise_cons.mp baseAscending
    have restAscending : (mem.dropWhile (· < k)).Pairwise (· < ·) :=
      memAscending.sublist (List.dropWhile_sublist _)
    -- what is left of the memtable keys after `k` is above `k`
    have above : ∀ x ∈ (if (mem.dropWhile (· < k)).head? = some k then
        (mem.dropWhile (· < k)).tail else mem.dropWhile (· < k)), k < x := by
      intro x member
      cases rest : mem.dropWhile (· < k) with
      | nil => simp [rest] at member
      | cons head tail =>
        rw [rest] at member restAscending
        have headNotBelow : ¬ head < k := by
          have stopped := List.head_dropWhile_not (p := (· < k)) (l := mem) (by simp [rest])
          simpa [rest] using stopped
        have order := not_lt.mp headNotBelow
        have tailAbove := (List.pairwise_cons.mp restAscending).1
        simp only [List.head?_cons, Option.some.injEq, List.tail_cons] at member
        split_ifs at member with equal
        · subst equal
          exact tailAbove x member
        · have strict := lt_of_le_of_ne order (Ne.symm equal)
          rcases List.mem_cons.mp member with rfl | later
          · exact strict
          · exact strict.trans (tailAbove x later)
    have keptAscending : (if (mem.dropWhile (· < k)).head? = some k then
        (mem.dropWhile (· < k)).tail else mem.dropWhile (· < k)).Pairwise (· < ·) := by
      split_ifs
      · exact restAscending.sublist (List.tail_sublist _)
      · exact restAscending
    simp only [joinKeys]
    refine List.pairwise_append.mpr ⟨memAscending.sublist (List.takeWhile_sublist _),
      List.pairwise_cons.mpr ⟨fun x member => ?_, ih keptAscending baseTail⟩, ?_⟩
    · rcases (mem_joinKeys keptAscending x).mp member with kept | inBase
      · exact above x kept
      · exact kLess x inBase
    · intro x before y after
      have xBelow : x < k := by simpa using List.mem_takeWhile_imp before
      rcases List.mem_cons.mp after with rfl | later
      · exact xBelow
      · refine xBelow.trans ?_
        rcases (mem_joinKeys keptAscending y).mp later with kept | inBase
        · exact above y kept
        · exact kLess y inBase

/-- The keys compaction visits in the shared tier. -/
def compactSharedKeys (t : Tier β) : List NodeId :=
  joinKeys t.mem.global.keys (RoutingBase.sharedKeys t.base)

/-- The scopes compaction visits. -/
def compactScopes (t : Tier β) : List ScopeId :=
  SortDedup.sortDedup (t.mem.overlays.keys ++ RoutingBase.baseScopes t.base)

section WellFormed

variable (wellFormed : t.WellFormed)

include wellFormed

/-- A compaction stream lists the keys of base and memtable. -/
theorem compactLocked_spec :
    CompressedTo t t.compactLocked.1 ∧
      t.compactLocked.2 = t.compactSharedKeys.flatMap (sharedCalls t.view) ++
        t.compactScopes.flatMap (scopeCalls t.view t.compactKeys) := by
  obtain ⟨first, sharedEq⟩ := emitEach_spec emitShared (sharedCalls t.view) wellFormed
    (fun t' step node => by
      rw [← step.view_eq]
      exact emitShared_spec (step.wellFormed wellFormed) node)
    t.compactSharedKeys
  have wellFormed₁ := first.wellFormed wellFormed
  have compactKeysEq : ∀ {t'}, CompressedTo t t' → t'.compactKeys = t.compactKeys := by
    intro t' whole
    funext s
    unfold compactKeys
    rw [whole.overlayKeys_eq wellFormed, whole.base_eq]
  obtain ⟨second, overlaysEq⟩ :=
    emitEach_spec (emitScope compactKeys) (scopeCalls t.view t.compactKeys) wellFormed₁
    (fun t' step scope => by
      have whole := first.trans step
      rw [← whole.view_eq, ← compactKeysEq whole]
      exact emitScope_spec (whole.wellFormed wellFormed) scope)
    (emitEach emitShared t.compactSharedKeys t).1.compactScopes
  refine ⟨first.trans second, ?_⟩
  have scopesEq :
      (emitEach emitShared t.compactSharedKeys t).1.compactScopes = t.compactScopes := by
    unfold compactScopes
    rw [first.scopeIds_eq, first.base_eq]
  rw [scopesEq] at overlaysEq
  rw [← sharedEq, ← overlaysEq, ← scopesEq]
  rfl

/-- Compaction visits every node the composed shared map moves. -/
theorem mem_compactSharedKeys (x : NodeId) : x ∈ t.compactSharedKeys ↔ t.view.shared x ≠ x := by
  rw [compactSharedKeys, mem_joinKeys (Dsu.keys_ascending _), Dsu.mem_keys_iff wellFormed.global,
    wellFormed.base.mem_sharedKeys]
  change _ ↔ t.mem.global.root (RoutingBase.sharedRoot t.base x) ≠ x
  rw [ne_eq, ne_eq, ne_eq, Over.comp_eq_self_iff wellFormed.base.shared
    (Dsu.isRootMap wellFormed.global)]
  tauto

theorem compactSharedKeys_ascending : t.compactSharedKeys.Pairwise (· < ·) :=
  joinKeys_ascending (Dsu.keys_ascending _) wellFormed.base.sharedKeys_ascending

theorem mem_compactKeys (s : ScopeId) (x : NodeId) :
    x ∈ t.compactKeys s ↔ t.view.overlay s x ≠ x := by
  rw [compactKeys, mem_joinKeys (overlayKeys_ascending t s), mem_overlayKeys_iff wellFormed,
    wellFormed.base.mem_overlayKeys]
  change _ ↔ t.mem.overlayRoot s (RoutingBase.overlayRoot t.base s x) ≠ x
  rw [ne_eq, ne_eq, ne_eq, Over.comp_eq_self_iff (wellFormed.base.overlay s)
    (wellFormed.overlayRoot s)]
  tauto

theorem compactKeys_ascending (s : ScopeId) : (t.compactKeys s).Pairwise (· < ·) :=
  joinKeys_ascending (overlayKeys_ascending t s) (wellFormed.base.overlayKeys_ascending s)

/-- A scope whose composed overlay moves anything is visited. -/
theorem mem_compactScopes {s : ScopeId} {x : NodeId} (moved : t.view.overlay s x ≠ x) :
    s ∈ t.compactScopes := by
  rw [compactScopes, SortDedup.mem_sortDedup, List.mem_append]
  change t.mem.overlayRoot s (RoutingBase.overlayRoot t.base s x) ≠ x at moved
  rw [ne_eq, Over.comp_eq_self_iff (wellFormed.base.overlay s) (wellFormed.overlayRoot s)] at moved
  by_cases inBase : RoutingBase.overlayRoot t.base s x = x
  · refine Or.inl ?_
    rw [Std.TreeMap.mem_keys]
    by_contra absent
    refine moved ⟨inBase, ?_⟩
    rw [Memtable.overlayRoot, Memtable.overlay, Std.TreeMap.getD_eq_fallback absent,
      Dsu.root_trackingMembers]
  · exact Or.inr (wellFormed.base.scopes_complete s x inBase)

end WellFormed

omit [RoutingBase β] in
/-- A scope whose memtable overlay moves anything is listed. -/
theorem mem_scopeIds {s : ScopeId} {x : NodeId} (moved : t.mem.overlayRoot s x ≠ x) :
    s ∈ t.mem.overlays.keys := by
  rw [Std.TreeMap.mem_keys]
  by_contra absent
  refine moved ?_
  rw [Memtable.overlayRoot, Memtable.overlay, Std.TreeMap.getD_eq_fallback absent,
    Dsu.root_trackingMembers]

end Tier

end Blaze
