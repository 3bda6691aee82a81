import Blaze.Storage.CompactBytes

/-!
# Which registry entries a merge moves

A merge takes out of the registry runs the entries whose root is a key of some layer
but the oldest of the range.  A root is registered only while it is a root of its own
layer and of everything below it, so no registered root is a key of the oldest layer,
wherever in the stack the range begins: the entries taken out are those whose root has
a parent in the range, and the merged run lists every entry under its live root.
-/

namespace Blaze

open RootMap PairTable LayeredBase

/-- A node without a parent in the layers is the root they compute for it. -/
theorem sharedParent_isSome_iff {layers : LayeredBase} (ok : StackOk layers.layers) (r : NodeId) :
    (layers.sharedParent r).isSome ↔ stackShared layers.layers r ≠ r := by
  have value := sharedParent_getD ok r
  cases parent : layers.sharedParent r with
  | none =>
    rw [parent, Option.getD_none] at value
    simp [← value]
  | some live =>
    rw [parent, Option.getD_some] at value
    have moved : live ≠ r := by
      intro same
      rw [same] at parent
      exact resolve_ne_some_self layers PuffinBase.sharedParent r parent
    simp [← value, moved]

/-- What a delta layer stores a parent for has a parent in the stack. -/
theorem stackShared_ne_of_mem_movedRoots {layers : LayeredBase} (ok : StackOk layers.layers)
    {r : NodeId} (moved : r ∈ movedRoots layers) : stackShared layers.layers r ≠ r := by
  obtain ⟨layer, later, key⟩ := List.mem_flatMap.mp moved
  have member : layer ∈ layers.layers := List.mem_of_mem_tail later
  intro fixed
  have stays := (stackRoot_eq_self_iff ok.shared.rootMap r).mp fixed layer.sharedRoot
    (List.mem_map_of_mem member)
  exact ((ok.wellFormed layer member).shared.tableRoot_ne_iff r).mpr key stays

section Slice

variable {older : List PuffinBase} {slice : LayeredBase} (ok : StackOk (older ++ slice.layers))
  (indexed : StackIndexed (older ++ slice.layers))

include ok indexed

/-- For a registered root the test is exact. -/
theorem mem_movedRoots_iff {layer : PuffinBase} (member : layer ∈ slice.layers) {r : NodeId}
    {s : ScopeId} (stored : registryEntry r s ∈ layer.registryIter) :
    r ∈ movedRoots slice ↔ (slice.sharedParent r).isSome := by
  rw [sharedParent_isSome_iff (sliceOk ok)]
  constructor
  · exact stackShared_ne_of_mem_movedRoots (sliceOk ok)
  · intro moved
    by_contra stays
    have found := compactedRoot_of_stored ok indexed member stored
    rw [compactedRoot, if_neg stays] at found
    exact moved found.symm

/-- The entries that are re-sorted are those whose root has a parent. -/
theorem corrections_eq :
    corrections slice = SortDedup.sortDedup
      (((registryEntries slice).filter fun entry =>
        (slice.sharedParent (ofLex entry).1).isSome).map fun entry =>
          registryEntry ((slice.sharedParent (ofLex entry).1).getD (ofLex entry).1)
            (ofLex entry).2) := by
  unfold corrections
  congr 2
  apply List.filter_congr
  intro entry listed
  obtain ⟨layer, member, stored⟩ := (mem_registryEntries slice entry).mp listed
  rw [Bool.eq_iff_iff, decide_eq_true_eq]
  exact mem_movedRoots_iff ok indexed member stored

/-- The merged run lists every stored entry under its live root. -/
theorem mem_compactRegistry_iff (root : NodeId) (s : ScopeId) :
    registryEntry root s ∈ (compactRegistry slice).getD [] ↔
      ∃ layer ∈ slice.layers, ∃ r, registryEntry r s ∈ layer.registryIter ∧
        root = (slice.sharedParent r).getD r := by
  have live : ∀ layer ∈ slice.layers, ∀ r, registryEntry r s ∈ layer.registryIter →
      compactedRoot slice r = (slice.sharedParent r).getD r := by
    intro layer member r stored
    rw [compactedRoot_of_stored ok indexed member stored, sharedParent_getD (sliceOk ok)]
  rw [show (compactRegistry slice).getD [] = (compactLayers slice).registryIter from rfl,
    mem_compactLayers_registryIter]
  constructor
  · rintro ⟨layer, member, r, stored, found⟩
    exact ⟨layer, member, r, stored, found.trans (live layer member r stored)⟩
  · rintro ⟨layer, member, r, stored, found⟩
    exact ⟨layer, member, r, stored, found.trans (live layer member r stored).symm⟩

end Slice

/-- A root that the layers compute has no parent in them. -/
theorem sharedParent_live {layers : LayeredBase} (ok : StackOk layers.layers) (r : NodeId) :
    layers.sharedParent ((layers.sharedParent r).getD r) = none := by
  rw [sharedParent_getD ok, ← Option.not_isSome_iff_eq_none, sharedParent_isSome_iff ok, not_not]
  exact ok.shared.isRootMap.idem r

/-- The registry writer fed with a run of entries. -/
def pushAll (encoding : RegistryEncoding) (entries : List RegistryEntry) : RegistryWriter :=
  entries.foldl (fun w entry => RegistryWriter.push w (ofLex entry).1 (ofLex entry).2)
    (RegistryWriter.new encoding)

theorem mergeRegistry_eq (layers : LayeredBase) (encoding : RegistryEncoding) :
    (mergeRegistry layers encoding).blob =
      (pushAll encoding ((compactRegistry layers).getD [])).finish := by
  rw [show (compactRegistry layers).getD [] = (compactLayers layers).registryIter from rfl,
    compactLayers_registryIter]
  rfl

/-- In every range of every stack with a past, the registered roots found in the delta
layers are those with a parent in the range, so the entries re-sorted are those whose
root changed, and the run that is written, in either encoding, is strictly ascending
and lists the entries of all layers under their live roots. -/
theorem slice_registry_resolved {events : List EdgeEvent} {d : DiskForest}
    (lineage : Lineage events d) {base slice : LayeredBase}
    (current : d.forest.tier.base = some base) {start stop : Nat}
    (range : base.slice start stop = .ok slice) :
    (∀ layer ∈ slice.layers, ∀ r s, registryEntry r s ∈ layer.registryIter →
        (r ∈ movedRoots slice ↔ (slice.sharedParent r).isSome)) ∧
      corrections slice = SortDedup.sortDedup
        (((registryEntries slice).filter fun entry =>
          (slice.sharedParent (ofLex entry).1).isSome).map fun entry =>
            registryEntry ((slice.sharedParent (ofLex entry).1).getD (ofLex entry).1)
              (ofLex entry).2) ∧
      ∃ written, (∀ encoding, (mergeRegistry slice encoding).blob =
          (pushAll encoding written).finish) ∧
        written.Pairwise (· < ·) ∧
        (∀ entry ∈ written, slice.sharedParent (ofLex entry).1 = none) ∧
        ∀ root s, registryEntry root s ∈ written ↔
          ∃ layer ∈ slice.layers, ∃ r, registryEntry r s ∈ layer.registryIter ∧
            root = (slice.sharedParent r).getD r := by
  obtain ⟨belowOk, below⟩ := lineage.stack_slice current range
  refine ⟨fun layer member r s stored => mem_movedRoots_iff belowOk below member stored,
    corrections_eq belowOk below, (compactRegistry slice).getD [], mergeRegistry_eq slice,
    compactLayers_registry_ascending (sliceOk belowOk), ?_, mem_compactRegistry_iff belowOk below⟩
  intro entry listed
  obtain ⟨layer, -, r, -, found⟩ :=
    (mem_compactRegistry_iff belowOk below (ofLex entry).1 (ofLex entry).2).mp listed
  rw [found]
  exact sharedParent_live (sliceOk belowOk) r

/-- The two layers of `foldedTwice`: the root 2 that the first one registers is absorbed
in the second. -/
theorem slice_registry_resolved_foldedTwice :
    ∃ base slice, foldedTwice.forest.tier.base = some base ∧ base.slice 0 2 = .ok slice ∧
      2 ∈ movedRoots slice ∧ (∃ layer ∈ slice.layers, registryEntry 2 7 ∈ layer.registryIter) ∧
      (slice.sharedParent 2).isSome := by
  have two : (0 : Nat) < 2 := by decide
  have count : (baseLayers foldedTwice.forest.tier.base).length = 2 := by decide +kernel
  have stored : ∃ layer ∈ baseLayers foldedTwice.forest.tier.base,
      registryEntry 2 7 ∈ layer.registryIter := by decide +kernel
  have moved : 2 ∈ (baseLayers foldedTwice.forest.tier.base).tail.flatMap
      fun layer => layer.shared.map Prod.fst := by decide +kernel
  obtain ⟨base, current⟩ : ∃ base, foldedTwice.forest.tier.base = some base := ⟨_, rfl⟩
  rw [current] at count stored moved
  change base.layers.length = 2 at count
  obtain ⟨slice, range⟩ := DiskForest.exists_slice two count.ge
  have whole : base.layers = slice.layers := by
    have split := DiskForest.layers_of_slice range
    rwa [List.take_zero, List.nil_append, List.drop_of_length_le count.le, List.append_nil] at split
  change ∃ layer ∈ base.layers, registryEntry 2 7 ∈ layer.registryIter at stored
  change 2 ∈ base.layers.tail.flatMap fun layer => layer.shared.map Prod.fst at moved
  rw [whole] at stored moved
  obtain ⟨layer, member, entry⟩ := stored
  have spec := (slice_registry_resolved lineage_foldedTwice current range).1 layer member 2 7 entry
  exact ⟨base, slice, current, range, moved, ⟨layer, member, entry⟩, spec.mp moved⟩

end Blaze
