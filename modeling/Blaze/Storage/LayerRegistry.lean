import Blaze.Storage.DiskForest

/-!
# What the registry of a layer records

A layer registers each scope at the shared roots, as of the layer itself, of the
points its overlay for the scope touches, and at nothing else.  Those points are
ones that the older layers leave alone in the shared tier, so what a layer
registers does not depend on the layers below it.  A delta fold, a full fold and
a merge of a range all write layers of this kind.
-/

namespace Blaze

open List RootMap PairTable LayeredBase

variable {older : List PuffinBase} {layer : PuffinBase} {slice : LayeredBase} {r : NodeId}

/-- The overlays of `layer` lie over the shared tier of the older layers, and its
registry names the shared roots of the points they touch. -/
structure Indexed (older : List PuffinBase) (layer : PuffinBase) : Prop where
  live : ∀ s, Over (layer.overlayRoot s) (stackShared older)
  entries : ∀ r s, registryEntry r s ∈ layer.registryIter ↔
    ∃ x, Touches (layer.overlayRoot s) x ∧ stackShared (older ++ [layer]) x = r

/-- Every layer of the stack is indexed over the layers below it. -/
def StackIndexed (layers : List PuffinBase) : Prop :=
  ∀ older layer newer, layers = older ++ layer :: newer → Indexed older layer

theorem stackShared_append (older newer : List PuffinBase) (x : NodeId) :
    stackShared (older ++ newer) x = stackShared newer (stackShared older x) := by
  rw [stackShared, map_append, stackRoot_append]
  rfl

/-- Only what the older layers compute matters. -/
theorem Indexed.congr {older' : List PuffinBase} (indexed : Indexed older layer)
    (same : stackShared older' = stackShared older) : Indexed older' layer := by
  refine ⟨?_, fun r s => ?_⟩
  · rw [same]
    exact indexed.live
  · rw [indexed.entries]
    simp only [stackShared_append, same]

namespace StackIndexed

variable {newer layers : List PuffinBase} {layer : PuffinBase}

theorem nil : StackIndexed [] := by
  intro older layer newer split
  simp at split

theorem of_append_left (indexed : StackIndexed (layers ++ newer)) : StackIndexed layers := by
  intro older layer rest split
  apply indexed older layer (rest ++ newer)
  rw [split, append_assoc, cons_append]

theorem push (indexed : StackIndexed layers) (top : Indexed layers layer) :
    StackIndexed (layers ++ [layer]) := by
  intro older other newer split
  rcases eq_nil_or_concat newer with rfl | ⟨newer, last, rfl⟩
  · obtain ⟨rfl, same⟩ := append_inj' split rfl
    rw [List.cons.injEq] at same
    rw [← same.1]
    exact top
  · rw [concat_eq_append, ← cons_append, ← append_assoc] at split
    exact indexed older other newer (append_inj' split rfl).1

theorem singleton (top : Indexed [] layer) : StackIndexed [layer] :=
  push nil top

end StackIndexed

/-! ## Folds -/

section Folds

variable {t : Tier LayeredBase} (wellFormed : t.WellFormed)

include wellFormed

/-- A delta registers what it holds: its pairs are the memtable's, whose points
the base has left alone. -/
theorem indexed_delta (ok : StackOk (baseLayers t.base))
    (live : ∀ s, Over (t.mem.overlayRoot s) (RoutingBase.sharedRoot t.base)) :
    Indexed (baseLayers t.base) (ScopedForest.deltaBase t) where
  live s := by
    rw [ScopedForest.deltaBase_overlayRoot wellFormed, ← sharedRoot_base t.base ok]
    exact live s
  entries r s := by
    rw [ScopedForest.stackShared_delta wellFormed ok,
      ScopedForest.deltaBase_overlayRoot wellFormed, ScopedForest.deltaBase,
      writtenBase_registryIter, SortDedup.mem_sortDedup, mem_writtenEntries, exists_touches_iff]
    constructor
    · rintro ⟨-, k, key, -, resolved⟩
      have moved := (Tier.mem_overlayKeys_iff wellFormed s k).mp key
      rw [ScopedForest.overlay_eq_of_key wellFormed moved] at resolved
      exact ⟨k, moved, resolved⟩
    · rintro ⟨k, moved, resolved⟩
      refine ⟨Tier.mem_scopeIds moved, k, (Tier.mem_overlayKeys_iff wellFormed s k).mpr moved, ?_⟩
      rw [ScopedForest.overlay_eq_of_key wellFormed moved]
      exact ⟨moved, resolved⟩

theorem indexed_full : Indexed [] (ScopedForest.fullBase t) where
  live s x _ := ⟨rfl, rfl⟩
  entries r s := by
    have shared : stackShared ([] ++ [ScopedForest.fullBase t]) = t.view.shared :=
      ScopedForest.fullBase_sharedRoot wellFormed
    rw [shared, ScopedForest.fullBase_overlayRoot wellFormed, ScopedForest.fullBase,
      writtenBase_registryIter, SortDedup.mem_sortDedup, mem_writtenEntries, exists_touches_iff]
    constructor
    · rintro ⟨-, k, -, moved, resolved⟩
      exact ⟨k, moved, resolved⟩
    · rintro ⟨k, moved, resolved⟩
      exact ⟨Tier.mem_compactScopes wellFormed moved, k,
        (Tier.mem_compactKeys wellFormed s k).mpr moved, moved, resolved⟩

end Folds

/-! ## Merges -/

/-- Where compaction of a slice puts the entries of a root. -/
def compactedRoot (slice : LayeredBase) (r : NodeId) : NodeId :=
  if r ∈ movedRoots slice then (slice.sharedParent r).getD r else r

/-- Compaction looks for absorbed roots in all layers but the oldest.  For a root
that the oldest layer fixes this finds its root in the slice. -/
theorem compactedRoot_eq (ok : StackOk slice.layers)
    (fixed : ∀ first ∈ slice.layers.head?, first.sharedRoot r = r) :
    compactedRoot slice r = stackShared slice.layers r := by
  unfold compactedRoot
  split
  · exact sharedParent_getD ok r
  · next stays =>
      symm
      apply (stackRoot_eq_self_iff ok.shared.rootMap r).mpr
      intro f inSlice
      obtain ⟨layer, member, rfl⟩ := mem_map.mp inSlice
      by_contra moved
      have key := ((ok.wellFormed layer member).shared.tableRoot_ne_iff r).mp moved
      cases layersEq : slice.layers with
      | nil => exact slice.nonempty layersEq
      | cons first rest =>
        rw [layersEq] at member fixed
        rcases mem_cons.mp member with rfl | later
        · exact moved (fixed layer rfl)
        · apply stays
          rw [movedRoots, layersEq]
          exact mem_flatMap.mpr ⟨layer, later, key⟩

section Merge

variable {older : List PuffinBase} {slice : LayeredBase} (ok : StackOk (older ++ slice.layers))
  (indexed : StackIndexed (older ++ slice.layers))

include ok

theorem sliceOk : StackOk slice.layers := by
  rw [← append_nil (older ++ slice.layers)] at ok
  exact (StackOk.splice ok).1

include indexed

/-- The overlays of a slice lie over the shared tier of what is below the slice. -/
theorem live_slice (s : ScopeId) : Over (stackOverlay slice.layers s) (stackShared older) := by
  apply stackRoot_over
  intro f inSlice
  obtain ⟨layer, member, rfl⟩ := mem_map.mp inSlice
  obtain ⟨below, above, split⟩ := append_of_mem member
  have here := indexed (older ++ below) layer above (by rw [split, append_assoc])
  have lower : ∀ y, stackShared (older ++ below) y = y → stackShared older y = y := by
    intro y fixed
    apply stackRoot_fixed_of_subset _
      (map_subset _ (subset_append_left older below)) fixed
    intro g inStack
    apply ok.shared.rootMap
    rw [split, ← append_assoc, map_append]
    exact mem_append_left _ inStack
  intro x moved
  obtain ⟨fixed, fixedRoot⟩ := here.live s x moved
  exact ⟨lower x fixed, lower _ fixedRoot⟩

/-- A registered root is a root of the layers up to its own, the oldest layer of the
slice included. -/
theorem compactedRoot_of_stored (member : layer ∈ slice.layers) {s : ScopeId}
    (stored : registryEntry r s ∈ layer.registryIter) :
    compactedRoot slice r = stackShared slice.layers r := by
  obtain ⟨below, above, split⟩ := append_of_mem member
  rw [append_cons] at split
  have upTo : StackOk (older ++ (below ++ [layer])) := by
    rw [split, ← append_assoc] at ok
    exact StackOk.of_append_left ok
  have here := indexed (older ++ below) layer above (by rw [split]; simp)
  obtain ⟨x, -, rfl⟩ := (here.entries r s).mp stored
  apply compactedRoot_eq (sliceOk ok)
  intro first lowest
  rw [append_assoc]
  apply upTo.shared.fixes x
  apply mem_map_of_mem
  apply mem_append_right
  rw [split, head?_append_of_ne_nil _ (by simp)] at lowest
  exact mem_of_mem_head? lowest

/-- The entries of one layer of the slice, under the roots compaction finds. -/
theorem exists_compacted_iff (member : layer ∈ slice.layers) (r : NodeId) (s : ScopeId) :
    (∃ r', registryEntry r' s ∈ layer.registryIter ∧ r = compactedRoot slice r') ↔
      ∃ x, Touches (layer.overlayRoot s) x ∧ stackShared (older ++ slice.layers) x = r := by
  have found := fun r' => compactedRoot_of_stored ok indexed member (r := r') (s := s)
  obtain ⟨below, above, split⟩ := append_of_mem member
  rw [append_cons] at split
  have here := indexed (older ++ below) layer above (by rw [split]; simp)
  have resumed : ∀ x, stackShared slice.layers (stackShared (older ++ below ++ [layer]) x) =
      stackShared (older ++ slice.layers) x := by
    intro x
    have layered := ok.shared
    rw [split, ← append_assoc, map_append] at layered
    have upTo := layered.of_append_left
    rw [map_append] at upTo
    have again := upTo.stackRoot_resume (above.map PuffinBase.sharedRoot) x
    simp only [← map_append] at again
    rw [split, append_assoc older]
    exact again
  constructor
  · rintro ⟨r', stored, rfl⟩
    rw [found r' stored]
    obtain ⟨x, touched, rfl⟩ := (here.entries r' s).mp stored
    exact ⟨x, touched, (resumed x).symm⟩
  · rintro ⟨x, touched, rfl⟩
    have stored := (here.entries _ s).mpr ⟨x, touched, rfl⟩
    exact ⟨_, stored, by rw [found _ stored, resumed]⟩

/-- The merge of a range is indexed over the layers below the range. -/
theorem indexed_merge : Indexed older (compactLayers slice) := by
  have overlayEq : ∀ s, (compactLayers slice).overlayRoot s = stackOverlay slice.layers s :=
    fun s => (compactLayers_overlayRoot (sliceOk ok) s).1
  have sharedEq : stackShared (older ++ [compactLayers slice]) =
      stackShared (older ++ slice.layers) := by
    have spliced : stackShared (older ++ [compactLayers slice]) =
        stackShared (older ++ slice.layers ++ []) := stackShared_splice (sliceOk ok)
    rwa [append_nil] at spliced
  refine ⟨fun s => ?_, fun r s => ?_⟩
  · rw [overlayEq]
    exact live_slice ok indexed s
  · rw [mem_compactLayers_registryIter, sharedEq, overlayEq]
    constructor
    · rintro ⟨layer, member, stored⟩
      obtain ⟨x, touched, resolved⟩ := (exists_compacted_iff ok indexed member r s).mp stored
      refine ⟨x, (((sliceOk ok).overlay s).touches_stackRoot_iff x).mpr ?_, resolved⟩
      exact ⟨_, mem_map.mpr ⟨layer, member, rfl⟩, touched⟩
    · rintro ⟨x, touched, resolved⟩
      obtain ⟨f, inSlice, touchedHere⟩ :=
        (((sliceOk ok).overlay s).touches_stackRoot_iff x).mp touched
      obtain ⟨layer, member, rfl⟩ := mem_map.mp inSlice
      exact ⟨layer, member, (exists_compacted_iff ok indexed member r s).mpr
        ⟨x, touchedHere, resolved⟩⟩

end Merge

/-- Replacing a range by its merge keeps every layer indexed. -/
theorem StackIndexed.splice {newer : List PuffinBase}
    (ok : StackOk (older ++ slice.layers ++ newer))
    (indexed : StackIndexed (older ++ slice.layers ++ newer)) :
    StackIndexed (older ++ compactLayers slice :: newer) := by
  have belowOk := StackOk.of_append_left ok
  have below := indexed.of_append_left
  rw [append_cons]
  induction newer using List.reverseRecOn with
  | nil =>
    rw [append_nil]
    exact below.of_append_left.push (indexed_merge belowOk below)
  | append_singleton newer last ih =>
    rw [← append_assoc] at ok indexed ⊢
    apply (ih (StackOk.of_append_left ok) indexed.of_append_left).push
    apply (indexed (older ++ slice.layers ++ newer) last [] rfl).congr
    rw [← append_cons]
    exact stackShared_splice (sliceOk belowOk)

end Blaze
