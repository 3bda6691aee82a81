import Blaze.Storage.Blobs
import Blaze.Storage.LineageAnswers

/-!
# Two compactors, one file

A range of layers can be merged by streaming a forest opened over the range, or by
merging the tables and registry runs of its layers.  The two build the registry in
unrelated ways: one derives it from every overlay pair, the other moves the stored
entries whose root was absorbed inside the range.  They write the same bytes.
-/

namespace Blaze

open RootMap PairTable LayeredBase Bytes

/-! ## The layout of a file -/

@[simp]
theorem data_blob (sequence : Nat) (blobType : String) (data : List UInt8)
    (properties : List (String × String)) :
    (blob sequence blobType data properties).data = data :=
  rfl

@[simp]
theorem scopeOf_blob (sequence : Nat) (blobType : String) (data : List UInt8) (scope : ScopeId) :
    scopeOf (blob sequence blobType data (scopeProperties scope)) = scope := by
  simp [scopeOf, blob, scopeProperties, Nat.toNat?_repr]

/-- A registry blob is no table. -/
theorem memberSource_registry {entries : List RegistryEntry} {encoding : RegistryEncoding}
    {written : String × List UInt8} (encoded : encodeRegistry entries encoding = some written)
    (sequence : Nat) :
    BlobWriter.memberSource (blob sequence written.1 written.2 []) = none := by
  unfold encodeRegistry RegistryWriter.finish at encoded
  split at encoded
  · cases encoded
  · split at encoded
    · cases encoded
      rfl
    · cases encoded
      rfl

namespace BlobWriter

/-- Indexing tables after other blobs only puts those blobs in front. -/
theorem foldl_indexTable (sequence : Nat) (opts : WriteOptions)
    (sources : List (MemberTier × ScopeId × List UInt8)) (blobs : List Blob) (out : MemberBlobs) :
    sources.foldl (indexTable sequence opts) { out with blobs := blobs ++ out.blobs } =
      { sources.foldl (indexTable sequence opts) out with
        blobs := blobs ++ (sources.foldl (indexTable sequence opts) out).blobs } := by
  induction sources generalizing out with
  | nil => rfl
  | cons source sources ih =>
    have step : indexTable sequence opts { out with blobs := blobs ++ out.blobs } source =
        { indexTable sequence opts out source with
          blobs := blobs ++ (indexTable sequence opts out source).blobs } := by
      obtain ⟨tier, scope, data⟩ := source
      unfold indexTable
      cases encodeMembers data opts.members tier with
      | none => rfl
      | some written =>
        cases tier with
        | shared => simp
        | overlay => simp
    rw [List.foldl_cons, List.foldl_cons, step, ih]

/-- The tables among the blobs of a file, which come first. -/
theorem filterMap_memberSource (sequence : Nat) (shared : List (NodeId × NodeId))
    (scopes : List (ScopeId × List (NodeId × NodeId))) {entries : List RegistryEntry}
    (encoding : RegistryEncoding) (sharedFilter overlayFilter : Option BlockedFilter) :
    ([blob sequence globalBlobType (table shared) []] ++
        (scopes.map fun scope =>
          blob sequence scopeBlobType (table scope.2) (scopeProperties scope.1)) ++
        ((encodeRegistry entries encoding).map fun written =>
          blob sequence written.1 written.2 []).toList ++
        (sharedFilter.map fun f => blob sequence sharedFilterBlobType f.encode []).toList ++
        (overlayFilter.map fun f => blob sequence overlayFilterBlobType f.encode []).toList
        ).filterMap memberSource =
      (.shared, 0, table shared) :: scopes.map fun scope => (.overlay, scope.1, table scope.2) := by
  have global : memberSource (blob sequence globalBlobType (table shared) []) =
      some (.shared, 0, table shared) := rfl
  have overlays : ∀ scope : ScopeId × List (NodeId × NodeId),
      memberSource (blob sequence scopeBlobType (table scope.2) (scopeProperties scope.1)) =
        some (.overlay, scope.1, table scope.2) := by
    intro scope
    change some (MemberTier.overlay, scopeOf (blob _ _ _ (scopeProperties scope.1)), _) = _
    rw [scopeOf_blob]
    rfl
  have registry : (((encodeRegistry entries encoding).map fun written =>
      blob sequence written.1 written.2 []).toList).filterMap memberSource = [] := by
    cases encoded : encodeRegistry entries encoding with
    | none => rfl
    | some written => simp [memberSource_registry encoded]
  have filters : ∀ (blobType : String) (filter : Option BlockedFilter),
      blobType ≠ globalBlobType → blobType ≠ scopeBlobType →
      ((filter.map fun f => blob sequence blobType f.encode []).toList).filterMap
        memberSource = [] := by
    intro blobType filter notGlobal notScope
    cases filter with
    | none => rfl
    | some f => simp [memberSource, blob, notGlobal, notScope]
  simp only [List.filterMap_append, registry,
    filters sharedFilterBlobType sharedFilter (by decide) (by decide),
    filters overlayFilterBlobType overlayFilter (by decide) (by decide), List.append_nil,
    List.filterMap_cons, List.filterMap_nil, global, List.filterMap_map]
  rw [List.filterMap_congr (g := fun scope => some (.overlay, scope.1, table scope.2))
    fun scope _ => overlays scope]
  simp [List.filterMap_eq_map']

theorem indexTable_shared (sequence : Nat) (opts : WriteOptions) (payload : List UInt8) :
    indexTable sequence opts ⟨[], [], []⟩ (.shared, 0, payload) =
      indexShared sequence opts payload := by
  unfold indexTable indexShared
  cases encodeMembers payload opts.members .shared with
  | none => rfl
  | some written => rfl

theorem indexTable_overlay (sequence : Nat) (opts : WriteOptions) (out : MemberBlobs)
    (scope : ScopeId) (payload : List UInt8) :
    indexTable sequence opts out (.overlay, scope, payload) =
      indexOverlay sequence opts out scope payload := by
  unfold indexTable indexOverlay
  cases encodeMembers payload opts.members .overlay with
  | none => rfl
  | some written => rfl

/-- The member index of a file is the same whether its tables are found again among
the blobs or indexed as they are merged. -/
theorem foldl_indexTable_tables (sequence : Nat) (opts : WriteOptions)
    (shared : List (NodeId × NodeId)) (scopes : List (ScopeId × List (NodeId × NodeId)))
    (blobs : List Blob) :
    ((.shared, 0, table shared) :: scopes.map fun scope =>
        (.overlay, scope.1, table scope.2)).foldl (indexTable sequence opts) ⟨blobs, [], []⟩ =
      let indexed := scopes.foldl (fun out scope =>
        indexOverlay sequence opts out scope.1 (table scope.2))
        (indexShared sequence opts (table shared))
      { indexed with blobs := blobs ++ indexed.blobs } := by
  have start := foldl_indexTable sequence opts
    ((.shared, 0, table shared) :: scopes.map fun scope => (.overlay, scope.1, table scope.2))
    blobs ⟨[], [], []⟩
  rw [List.append_nil] at start
  rw [start, List.foldl_cons, List.foldl_map, indexTable_shared]
  simp only [indexTable_overlay]

/-- A writer that received the tables and entries of a compaction of layers writes
the blobs of that compaction. -/
theorem finishBlobs_eq {layers : LayeredBase} {w : BlobWriter}
    (shared : w.shared = layers.sharedPairs) (scopes : w.scopeBlobs = mergeOverlays layers)
    (registry : SortDedup.sortDedup w.registry = (compactLayers layers).registryIter)
    (sequence : Nat) (opts : WriteOptions) :
    w.finishBlobs sequence opts = (compactLayersBlobs layers sequence opts).1 := by
  rw [compactLayers_registryIter] at registry
  -- the two count the overlay keys from the encoded and from the merged tables
  have overlayKeys : (mergeOverlays layers).foldl
      (fun keys scope => keys + (tableKeys (table scope.2)).length) 0 =
        (mergeOverlays layers).foldl (fun pairs scope => pairs + pairCount scope.2) 0 := by
    simp only [length_tableKeys_table]
  unfold finishBlobs compactLayersBlobs mergeRegistry
  simp only [shared, scopes, registry, List.foldl_map, List.flatMap_map, scopeOf_blob, List.map_map,
    filterMap_memberSource, foldl_indexTable_tables]
  cases opts.memberIndex with
  | false | true => simp [overlayKeys, encodeRegistry, Function.comp_def]

end BlobWriter

/-! ## The same tables and entries -/

/-- Two layers with the same root maps have the same registry, wherever in a stack
they are: what a layer registers does not depend on the layers below. -/
theorem registryIter_eq_of_indexed {older : List PuffinBase} {full merged : PuffinBase}
    (fullOk : full.WellFormed) (mergedOk : merged.WellFormed) (fullIndexed : Indexed [] full)
    (mergedIndexed : Indexed older merged) (shared : full.sharedRoot = merged.sharedRoot)
    (overlay : ∀ s, full.overlayRoot s = merged.overlayRoot s) :
    full.registryIter = merged.registryIter := by
  apply fullOk.registry.eq_of_mem_iff mergedOk.registry
  intro entry
  change registryEntry (ofLex entry).1 (ofLex entry).2 ∈ _ ↔
    registryEntry (ofLex entry).1 (ofLex entry).2 ∈ _
  rw [fullIndexed.entries, mergedIndexed.entries, overlay]
  apply exists_congr
  intro x
  apply and_congr_right
  intro touched
  rw [stackShared_append, stackShared_append, (mergedIndexed.live _).fixes_touched touched]
  change full.sharedRoot x = _ ↔ merged.sharedRoot x = _
  rw [shared]

/-- The scopes a forest over a slice visits are the scopes of the slice. -/
theorem compactScopes_withBase (slice : LayeredBase) :
    (ScopedForest.withBase slice).tier.compactScopes = slice.scopes := by
  apply (SortDedup.sortDedup_ascending _).eq_of_mem_iff (SortDedup.sortDedup_ascending _)
  intro s
  rw [SortDedup.mem_sortDedup, SortDedup.mem_sortDedup]
  change s ∈ Std.TreeMap.keys (∅ : Std.TreeMap ScopeId Dsu) ++ slice.scopes ↔ _
  simp [LayeredBase.scopes]

/-- Merging a slice of a stack and streaming a forest opened over it write the same
blobs. -/
theorem compactLayersBlobs_eq {older : List PuffinBase} {slice : LayeredBase}
    (ok : StackOk (older ++ slice.layers)) (indexed : StackIndexed (older ++ slice.layers))
    (sequence : Nat) (opts : WriteOptions) :
    (compactLayersBlobs slice sequence opts).1 =
      compactToBlobs (ScopedForest.withBase slice) sequence opts := by
  have part : StackOk slice.layers := sliceOk ok
  have wellFormed : (ScopedForest.withBase slice).tier.WellFormed :=
    Tier.wellFormed_fresh (some slice) false part
  have view : (ScopedForest.withBase slice).tier.view = stackView slice.layers :=
    Tier.view_fresh (some slice) false part
  set t := (ScopedForest.withBase slice).tier with tierDef
  have fullOk := ScopedForest.fullBase_wellFormed wellFormed
  have mergedOk := compactLayers_wellFormed part
  have sharedRoot : (ScopedForest.fullBase t).sharedRoot = (compactLayers slice).sharedRoot := by
    rw [ScopedForest.fullBase_sharedRoot wellFormed, view, (compactLayers_sharedRoot part).1]
    rfl
  have overlayRoot : ∀ s,
      (ScopedForest.fullBase t).overlayRoot s = (compactLayers slice).overlayRoot s := by
    intro s
    rw [ScopedForest.fullBase_overlayRoot wellFormed, view, (compactLayers_overlayRoot part s).1]
    rfl
  have shared := fullOk.shared.ext mergedOk.shared sharedRoot
  have overlays := fun s => (fullOk.overlays s).ext (mergedOk.overlays s) (overlayRoot s)
  have registry := registryIter_eq_of_indexed fullOk mergedOk
    (indexed_full wellFormed) (indexed_merge ok indexed) sharedRoot overlayRoot
  rw [ScopedForest.fullBase, writtenBase_registryIter] at registry
  rw [ScopedForest.fullBase, writtenBase_shared] at shared
  symm
  change BlobWriter.finishBlobs (t.compactLocked.2.foldl BlobWriter.receive BlobWriter.new) _ _ = _
  rw [(Tier.compactLocked_spec wellFormed).2, writer_eq]
  apply BlobWriter.finishBlobs_eq shared _ registry
  change t.compactScopes.flatMap _ = _
  rw [mergeOverlays_eq, compactScopes_withBase]
  apply List.flatMap_congr
  intro s listed
  have same := overlays s
  rw [ScopedForest.fullBase, writtenBase_overlay, compactScopes_withBase, if_pos listed,
    compactLayers_overlay, if_pos listed] at same
  rw [same]

/-- Every slice of every stack with a past is merged into the same blobs, byte for
byte, by the two compactors. -/
theorem slice_blobs_eq {events : List EdgeEvent} {d : DiskForest} (lineage : Lineage events d)
    {base slice : LayeredBase} (current : d.forest.tier.base = some base) {start stop : Nat}
    (range : base.slice start stop = .ok slice) (sequence : Nat) (opts : WriteOptions) :
    (compactLayersBlobs slice sequence opts).1 =
      compactToBlobs (ScopedForest.withBase slice) sequence opts := by
  obtain ⟨ok, indexed⟩ := lineage.stack_slice current range
  exact compactLayersBlobs_eq ok indexed sequence opts

/-- The two layers of `foldedTwice`, merged with every part of the encoding on. -/
theorem slice_blobs_eq_foldedTwice :
    ∃ base slice, foldedTwice.forest.tier.base = some base ∧ base.slice 0 2 = .ok slice ∧
      (compactLayersBlobs slice 3 ⟨10, .blocked, true, .blocked⟩).1 =
        compactToBlobs (ScopedForest.withBase slice) 3 ⟨10, .blocked, true, .blocked⟩ := by
  have two : (0 : Nat) < 2 := by decide
  have inside : 2 ≤ (baseLayers foldedTwice.forest.tier.base).length := by decide +kernel
  obtain ⟨base, current⟩ : ∃ base, foldedTwice.forest.tier.base = some base := ⟨_, rfl⟩
  rw [current] at inside
  obtain ⟨slice, range⟩ := DiskForest.exists_slice two inside
  exact ⟨base, slice, current, range, slice_blobs_eq lineage_foldedTwice current range 3 _⟩

end Blaze
