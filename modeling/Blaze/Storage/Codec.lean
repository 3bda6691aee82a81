import Blaze.Core.ForestStream
import Blaze.Storage.Base

/-!
# Writing a routing file

The blob writer receives a compaction or delta stream and turns it into the
tables of one file.  Its specification says what the file's tables and registry
contain when the stream was made from a view.
-/

namespace Blaze

open RootMap PairTable ScopedView

/-- The tables being written: the shared pairs, the scope currently open, the
registry entries seen so far, and the scopes already closed. -/
structure BlobWriter where
  shared : List (NodeId × NodeId)
  scope : Option (ScopeId × List (NodeId × NodeId))
  registry : List RegistryEntry
  scopeBlobs : List (ScopeId × List (NodeId × NodeId))

namespace BlobWriter

def new : BlobWriter :=
  ⟨[], none, [], []⟩

/-- Handle one sink call. -/
def receive (w : BlobWriter) : SinkCall → BlobWriter
  | .sharedPair node root => { w with shared := w.shared ++ [(node, root)] }
  | .scopeStart scope => { w with scope := some (scope, []) }
  | .overlayPair node root =>
      { w with scope := w.scope.map fun opened => (opened.1, opened.2 ++ [(node, root)]) }
  | .registryEntry root scope => { w with registry := w.registry ++ [registryEntry root scope] }
  | .scopeEnd _ =>
      match w.scope with
      | none => w
      | some (scope, pairs) =>
          -- a scope whose overlay resolved to nothing gets no blob at all
          if pairs.isEmpty then
            { w with scope := none }
          else
            { w with scope := none, scopeBlobs := w.scopeBlobs ++ [(scope, pairs)] }

/-- The finished file: tables as written, registry sorted and deduplicated, and
no registry at all when there is no entry. -/
def finish (w : BlobWriter) : PuffinBase where
  shared := w.shared
  overlays := w.scopeBlobs.foldl (fun overlays blob => overlays.insert blob.1 blob.2) ∅
  registry :=
    let entries := SortDedup.sortDedup w.registry
    if entries.isEmpty then none else some entries

end BlobWriter

/-- Write a stream to a file and open it. -/
def writeBase (calls : List SinkCall) : PuffinBase :=
  (calls.foldl BlobWriter.receive BlobWriter.new).finish

/-- Decode a file back into a forest snapshot. -/
def blobsToSnapshot (base : PuffinBase) : ForestSnapshot where
  global := base.shared
  scopes := base.overlays.toList

/-! ## What is written -/

section Spec

variable (V : View NodeId ScopeId)

/-- The registry entries written for one overlay key. -/
def overlayEntries (scope : ScopeId) (node : NodeId) : List RegistryEntry :=
  if V.overlay scope node = node then
    []
  else
    [registryEntry (V.shared node) scope] ++
      if V.shared (V.overlay scope node) ≠ V.shared node then
        [registryEntry (V.shared (V.overlay scope node)) scope]
      else []

/-- The shared table written for the visited keys. -/
def sharedTable (keys : List NodeId) : List (NodeId × NodeId) :=
  tableOf (keys.filter fun k => V.shared k ≠ k) V.shared

/-- The overlay table written for the visited keys of one scope. -/
def overlayTable (scope : ScopeId) (keys : List NodeId) : List (NodeId × NodeId) :=
  tableOf (keys.filter fun k => V.overlay scope k ≠ k) (V.overlay scope)

theorem mem_overlayEntries {t s : ScopeId} {k r : NodeId} :
    registryEntry r s ∈ overlayEntries V t k ↔
      t = s ∧ V.overlay s k ≠ k ∧ (V.shared k = r ∨ V.shared (V.overlay s k) = r) := by
  by_cases same : t = s
  · subst same
    by_cases fixed : V.overlay t k = k
    · simp [overlayEntries, fixed]
    · by_cases distinct : V.shared (V.overlay t k) = V.shared k
      · simp [overlayEntries, fixed, distinct, @eq_comm _ r]
      · simp [overlayEntries, fixed, distinct, @eq_comm _ r]
  · by_cases fixed : V.overlay t k = k
    · simp [overlayEntries, fixed, same]
    · by_cases distinct : V.shared (V.overlay t k) = V.shared k
      · simp [overlayEntries, fixed, distinct, same, Ne.symm same]
      · simp [overlayEntries, fixed, distinct, same, Ne.symm same]

theorem foldl_sharedCalls (keys : List NodeId) (w : BlobWriter) :
    (keys.flatMap (sharedCalls V)).foldl BlobWriter.receive w =
      { w with shared := w.shared ++ sharedTable V keys } := by
  induction keys generalizing w with
  | nil => simp [sharedTable, tableOf]
  | cons k keys ih =>
    rw [List.flatMap_cons, List.foldl_append, ih]
    by_cases moved : V.shared k = k <;>
      simp [sharedCalls, sharedTable, tableOf, moved, BlobWriter.receive]

theorem foldl_overlayCalls (scope : ScopeId) (keys : List NodeId) (w : BlobWriter)
    (pairs : List (NodeId × NodeId)) (opened : w.scope = some (scope, pairs)) :
    (keys.flatMap (overlayCalls V scope)).foldl BlobWriter.receive w =
      { w with
        scope := some (scope, pairs ++ overlayTable V scope keys)
        registry := w.registry ++ keys.flatMap (overlayEntries V scope) } := by
  induction keys generalizing w pairs with
  | nil => simp [overlayTable, tableOf, ← opened]
  | cons k keys ih =>
    rw [List.flatMap_cons, List.foldl_append]
    by_cases moved : V.overlay scope k = k
    · simp only [overlayCalls, moved, if_true, List.foldl_nil]
      rw [ih w pairs opened]
      simp [overlayTable, tableOf, overlayEntries, moved]
    · have received : (overlayCalls V scope k).foldl BlobWriter.receive w =
          { w with
            scope := some (scope, pairs ++ [(k, V.overlay scope k)])
            registry := w.registry ++ overlayEntries V scope k } := by
        by_cases distinct : V.shared (V.overlay scope k) = V.shared k <;>
          simp [overlayCalls, overlayEntries, moved, distinct, BlobWriter.receive, opened]
      rw [received, ih _ (pairs ++ [(k, V.overlay scope k)]) rfl]
      simp [overlayTable, tableOf, moved]

theorem foldl_scopeCalls (keys : ScopeId → List NodeId) (scope : ScopeId) (w : BlobWriter) :
    (scopeCalls V keys scope).foldl BlobWriter.receive w =
      { w with
        scope := none
        registry := w.registry ++ (keys scope).flatMap (overlayEntries V scope)
        scopeBlobs := w.scopeBlobs ++
          if (overlayTable V scope (keys scope)).isEmpty then []
          else [(scope, overlayTable V scope (keys scope))] } := by
  simp only [scopeCalls, List.foldl_append, List.foldl_cons, List.foldl_nil]
  rw [foldl_overlayCalls V scope (keys scope) (w.receive (.scopeStart scope)) [] rfl]
  simp only [BlobWriter.receive, List.nil_append]
  split <;> simp

theorem foldl_scopes (keys : ScopeId → List NodeId) (scopes : List ScopeId) (w : BlobWriter)
    (closed : w.scope = none) :
    (scopes.flatMap (scopeCalls V keys)).foldl BlobWriter.receive w =
      { w with
        registry := w.registry ++
          scopes.flatMap fun s => (keys s).flatMap (overlayEntries V s)
        scopeBlobs := w.scopeBlobs ++ scopes.flatMap fun s =>
          if (overlayTable V s (keys s)).isEmpty then []
          else [(s, overlayTable V s (keys s))] } := by
  induction scopes generalizing w with
  | nil => simp
  | cons s scopes ih =>
    rw [List.flatMap_cons, List.foldl_append, foldl_scopeCalls, ih _ rfl]
    simp [closed]

end Spec

/-- The overlay tables of a file whose scope blobs were written in turn. -/
theorem getD_foldl_insert (table : ScopeId → List (NodeId × NodeId)) (scopes : List ScopeId)
    (overlays : Std.TreeMap ScopeId (List (NodeId × NodeId))) (s : ScopeId) :
    ((scopes.flatMap fun s => if (table s).isEmpty then [] else [(s, table s)]).foldl
      (fun overlays blob => overlays.insert blob.1 blob.2) overlays).getD s [] =
      if s ∈ scopes ∧ table s ≠ [] then table s else overlays.getD s [] := by
  induction scopes generalizing overlays with
  | nil => simp
  | cons scope scopes ih =>
    rw [List.flatMap_cons, List.foldl_append, ih]
    by_cases empty : table scope = []
    · by_cases same : s = scope
      · subst same
        simp [empty]
      · simp [empty, same]
    · by_cases same : s = scope
      · subst same
        simp [empty]
      · simp [empty, same, Std.TreeMap.getD_insert, Ne.symm same]

section Written

variable (V : View NodeId ScopeId) (sharedKeys : List NodeId) (scopes : List ScopeId)
  (overlayKeys : ScopeId → List NodeId)

/-- The file written from a stream that visits the given keys. -/
def writtenBase : PuffinBase :=
  writeBase (sharedKeys.flatMap (sharedCalls V) ++ scopes.flatMap (scopeCalls V overlayKeys))

theorem writer_eq :
    (sharedKeys.flatMap (sharedCalls V) ++ scopes.flatMap (scopeCalls V overlayKeys)).foldl
        BlobWriter.receive BlobWriter.new =
      { shared := sharedTable V sharedKeys
        scope := none
        registry := scopes.flatMap fun s => (overlayKeys s).flatMap (overlayEntries V s)
        scopeBlobs := scopes.flatMap fun s =>
          if (overlayTable V s (overlayKeys s)).isEmpty then []
          else [(s, overlayTable V s (overlayKeys s))] } := by
  rw [List.foldl_append, foldl_sharedCalls, foldl_scopes V overlayKeys scopes _ rfl]
  simp [BlobWriter.new]

theorem writtenBase_shared :
    (writtenBase V sharedKeys scopes overlayKeys).shared = sharedTable V sharedKeys := by
  rw [writtenBase, writeBase, writer_eq]
  rfl

theorem writtenBase_overlay (s : ScopeId) :
    (writtenBase V sharedKeys scopes overlayKeys).overlay s =
      if s ∈ scopes then overlayTable V s (overlayKeys s) else [] := by
  rw [writtenBase, writeBase, writer_eq]
  change Std.TreeMap.getD (List.foldl _ ∅ _) s [] = _
  rw [getD_foldl_insert (fun s => overlayTable V s (overlayKeys s)), Std.TreeMap.getD_emptyc]
  by_cases listed : s ∈ scopes <;>
    by_cases empty : overlayTable V s (overlayKeys s) = [] <;> simp [listed, empty]

/-- The registry entries of the written pairs, in the order they are sent. -/
def writtenEntries : List RegistryEntry :=
  scopes.flatMap fun s => (overlayKeys s).flatMap (overlayEntries V s)

theorem writtenBase_registryIter :
    (writtenBase V sharedKeys scopes overlayKeys).registryIter =
      SortDedup.sortDedup (writtenEntries V scopes overlayKeys) := by
  rw [writtenBase, writeBase, writer_eq]
  unfold PuffinBase.registryIter BlobWriter.finish writtenEntries
  dsimp only
  split
  · next empty => simpa using (List.isEmpty_iff.mp empty).symm
  · rfl

theorem mem_writtenEntries (r : NodeId) (s : ScopeId) :
    registryEntry r s ∈ writtenEntries V scopes overlayKeys ↔
      s ∈ scopes ∧ ∃ k ∈ overlayKeys s, V.overlay s k ≠ k ∧
        (V.shared k = r ∨ V.shared (V.overlay s k) = r) := by
  simp only [writtenEntries, List.mem_flatMap, mem_overlayEntries]
  constructor
  · rintro ⟨_, listed, k, key, rfl, rest⟩
    exact ⟨listed, k, key, rest⟩
  · rintro ⟨listed, k, key, rest⟩
    exact ⟨s, listed, k, key, rfl, rest⟩

/-- Every overlay pair sends a registry entry, so a file without entries has no
overlay pairs. -/
theorem writtenBase_indexed
    (empty : (writtenBase V sharedKeys scopes overlayKeys).registryIter = []) (s : ScopeId) :
    (writtenBase V sharedKeys scopes overlayKeys).overlay s = [] := by
  rw [writtenBase_overlay]
  split
  · next listed =>
      simp only [overlayTable, tableOf, List.map_eq_nil_iff, List.filter_eq_nil_iff,
        decide_eq_true_eq, not_not]
      intro k key
      by_contra moved
      have sent : registryEntry (V.shared k) s ∈ writtenEntries V scopes overlayKeys :=
        (mem_writtenEntries V scopes overlayKeys _ _).mpr ⟨listed, k, key, moved, Or.inl rfl⟩
      rw [← SortDedup.mem_sortDedup, ← writtenBase_registryIter V sharedKeys, empty] at sent
      cases sent
  · rfl

/-- A file written from a view whose maps are root maps is well formed. -/
theorem writtenBase_wellFormed (shared : IsRootMap V.shared)
    (overlay : ∀ s, IsRootMap (V.overlay s)) (sharedAscending : sharedKeys.Pairwise (· < ·))
    (overlayAscending : ∀ s, (overlayKeys s).Pairwise (· < ·)) :
    (writtenBase V sharedKeys scopes overlayKeys).WellFormed where
  shared := by
    rw [writtenBase_shared]
    exact resolved_tableOf shared (sharedAscending.filter _) (by simp)
  overlays s := by
    rw [writtenBase_overlay]
    split
    · exact resolved_tableOf (overlay s) ((overlayAscending s).filter _) (by simp)
    · exact resolved_nil
  registry := by
    rw [writtenBase_registryIter]
    exact SortDedup.sortDedup_ascending _
  indexed := writtenBase_indexed V sharedKeys scopes overlayKeys

/-- A scope is recorded at the live shared roots of both endpoints of every
overlay pair written, and nowhere else. -/
theorem mem_writtenBase_scopesForRoot
    (wellFormed : (writtenBase V sharedKeys scopes overlayKeys).WellFormed) (r : NodeId)
    (s : ScopeId) :
    s ∈ (writtenBase V sharedKeys scopes overlayKeys).scopesForRoot r ↔
      s ∈ scopes ∧ ∃ k ∈ overlayKeys s, V.overlay s k ≠ k ∧
        (V.shared k = r ∨ V.shared (V.overlay s k) = r) := by
  rw [wellFormed.mem_scopesForRoot, writtenBase_registryIter, SortDedup.mem_sortDedup,
    mem_writtenEntries]

end Written

end Blaze
