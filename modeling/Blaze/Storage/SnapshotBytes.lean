import Blaze.Storage.CompactBytes

/-!
# A snapshot and a stream, one file

The flush path streams a forest into the blob writer.  The other way to the same file
is to collect a snapshot of the forest first: its tables are sorted before they are
encoded, its registry is derived from the collected maps, and its filters are built
from the pairs and not from the encoded tables.
-/

namespace Blaze

open List RootMap PairTable ScopedView Bytes

variable {pairs : List (NodeId × NodeId)} {visited : List NodeId} {k r : NodeId} {s : ScopeId}

/-! ## Blobs of a snapshot -/

/-- Sort the pairs by node and write them as a table. -/
def encodePairs (pairs : List (NodeId × NodeId)) : List UInt8 :=
  table (pairs.insertionSort fun first second => first.1 ≤ second.1)

/-- Every overlay member resolved through the shared map of the snapshot to its live
shared root. -/
def registryFromSnapshot (snap : ForestSnapshot) : List RegistryEntry :=
  let shared : Std.TreeMap NodeId NodeId := Std.TreeMap.ofList snap.global
  SortDedup.sortDedup (snap.scopes.flatMap fun scope => scope.2.flatMap fun pair =>
    [pair.1, pair.2].map fun member => registryEntry (shared.getD member member) scope.1)

/-- The member blob of the table in a blob, if it is a table and has pairs. -/
def indexBlob (sequence : Nat) (opts : WriteOptions) (out : MemberBlobs) (b : Blob) :
    MemberBlobs :=
  if b.blobType = globalBlobType then
    match encodeMembers b.data opts.members .shared with
    | none => out
    | some (blobType, data, parents) =>
        { out with
          sharedParents := parents
          blobs := out.blobs ++ [blob sequence blobType data []] }
  else if b.blobType = scopeBlobType then
    match encodeMembers b.data opts.members .overlay with
    | none => out
    | some (blobType, data, parents) =>
        { out with
          overlayParents := out.overlayParents ++ [(scopeOf b, parents)]
          blobs := out.blobs ++ [blob sequence blobType data b.properties] }
  else
    out

/-- Encode a forest snapshot as blobs. -/
def snapshotToBlobs (snap : ForestSnapshot) (sequence : Nat) (opts : WriteOptions) : List Blob :=
  let registry := encodeRegistry (registryFromSnapshot snap) opts.registry
  let overlayKeys := snap.scopes.foldl (fun keys scope => keys + scope.2.length) 0
  let filters := [(sharedFilterBlobType,
      BlockedFilter.buildWith (snap.global.map fun pair => UInt64.ofNat pair.1)
        snap.global.length opts.filterBits),
    (overlayFilterBlobType,
      BlockedFilter.buildWith (snap.scopes.flatMap fun scope =>
        scope.2.map fun pair => overlayKey scope.1 (UInt64.ofNat pair.1))
        overlayKeys opts.filterBits)].filterMap
    fun filter => filter.2.map fun built => (filter.1, built)
  let blobs := [blob sequence globalBlobType (encodePairs snap.global) []] ++
    (snap.scopes.map fun scope =>
      blob sequence scopeBlobType (encodePairs scope.2) (scopeProperties scope.1)) ++
    (registry.map fun written => blob sequence written.1 written.2 []).toList ++
    filters.map fun filter => blob sequence filter.1 filter.2.encode []
  if opts.memberIndex then
    let members := blobs.foldl (indexBlob sequence opts) ⟨[], [], []⟩
    blobs ++ (members.blobs ++
      (memberFilters members.sharedParents members.overlayParents opts.filterBits).map
        fun filter => blob sequence filter.1 filter.2.encode [])
  else
    blobs

/-! ## Collecting and streaming -/

/-- The collector holds the tables of the writer. -/
theorem foldl_receive_collector (calls : List SinkCall) (w : BlobWriter) :
    calls.foldl SnapshotCollector.receive ⟨w.shared, w.scopeBlobs, w.scope⟩ =
      let w := calls.foldl BlobWriter.receive w
      ⟨w.shared, w.scopeBlobs, w.scope⟩ := by
  induction calls generalizing w with
  | nil => rfl
  | cons call calls ih =>
    have step : SnapshotCollector.receive ⟨w.shared, w.scopeBlobs, w.scope⟩ call =
        ⟨(w.receive call).shared, (w.receive call).scopeBlobs, (w.receive call).scope⟩ := by
      cases call with
      | scopeEnd scope =>
        obtain ⟨shared, opened, registry, scopeBlobs⟩ := w
        unfold SnapshotCollector.receive BlobWriter.receive
        cases opened with
        | none => rfl
        | some opened =>
          dsimp only
          split <;> rfl
      | _ => rfl
    rw [foldl_cons, step, ih]
    rfl

/-- The pairs of an encoded table are its pairs, as 64-bit numbers. -/
theorem tableKeys_table (few : pairs.length < 2 ^ 64) :
    tableKeys (table pairs) = pairs.map fun pair => (pair.1 % 256 ^ 8, pair.2 % 256 ^ 8) := by
  have holds : Holds (table pairs) 8
      (pairs.flatMap fun pair => putLe 8 pair.1 ++ putLe 8 pair.2) := by
    have whole := holds_middle [] (table pairs) []
    rw [append_nil, nil_append, length_nil] at whole
    have split := (holds_append.mp whole).2
    rwa [length_putLe] at split
  have wide : ∀ pair : NodeId × NodeId, (putLe 8 pair.1 ++ putLe 8 pair.2).length = 16 := by
    simp
  have long : (table pairs).length ≥ 8 := by simp [table]
  have count : getLe 8 (table pairs) 0 = pairs.length := by
    rw [table, getLe_putLe_append, pairCount, Nat.mod_eq_of_lt few]
    exact Nat.mod_eq_of_lt few
  unfold tableKeys
  rw [if_pos long, count]
  dsimp only
  rw [map_eq_iff]
  intro i
  rw [getElem?_map]
  by_cases inside : i < pairs.length
  · have item := holds.item wide (getElem?_eq_getElem inside)
    rw [holds_append, length_putLe] at item
    rw [getElem?_eq_getElem inside, getElem?_range inside, Option.map_some,
      Option.map_some, getLe_of_holds item.1, getLe_of_holds item.2]
  · have beyond := not_lt.mp inside
    rw [getElem?_eq_none beyond, getElem?_eq_none (by rwa [length_range])]
    rfl

/-- Indexing the blobs is indexing the tables found among them, as long as a scope
stands in the properties of its blob. -/
theorem foldl_indexBlob (sequence : Nat) (opts : WriteOptions) {blobs : List Blob}
    (labelled : ∀ b ∈ blobs,
      b.blobType = scopeBlobType → b.properties = scopeProperties (scopeOf b))
    (out : MemberBlobs) :
    blobs.foldl (indexBlob sequence opts) out =
      (blobs.filterMap BlobWriter.memberSource).foldl (BlobWriter.indexTable sequence opts)
        out := by
  induction blobs generalizing out with
  | nil => rfl
  | cons b blobs ih =>
    have rest := ih fun b member => labelled b (mem_cons_of_mem _ member)
    have step : indexBlob sequence opts out b =
        (BlobWriter.memberSource b).elim out (BlobWriter.indexTable sequence opts out) := by
      unfold indexBlob BlobWriter.memberSource
      split
      · rfl
      · split
        · next isScope =>
            rw [labelled b mem_cons_self isScope]
            rfl
        · rfl
    rw [foldl_cons, step, rest, filterMap_cons]
    cases BlobWriter.memberSource b <;> rfl

/-- The member index is put behind the blobs it was made from. -/
theorem memberBlobs_eq (sequence : Nat) (opts : WriteOptions) {blobs : List Blob}
    (labelled : ∀ b ∈ blobs,
      b.blobType = scopeBlobType → b.properties = scopeProperties (scopeOf b)) :
    let members := blobs.foldl (indexBlob sequence opts) ⟨[], [], []⟩
    let indexed := (blobs.filterMap BlobWriter.memberSource).foldl
      (BlobWriter.indexTable sequence opts) ⟨blobs, [], []⟩
    blobs ++ (members.blobs ++
        (memberFilters members.sharedParents members.overlayParents opts.filterBits).map
          fun filter => blob sequence filter.1 filter.2.encode []) =
      indexed.blobs ++
        (memberFilters indexed.sharedParents indexed.overlayParents opts.filterBits).map
          fun filter => blob sequence filter.1 filter.2.encode [] := by
  have behind := BlobWriter.foldl_indexTable sequence opts
    (blobs.filterMap BlobWriter.memberSource) blobs ⟨[], [], []⟩
  rw [append_nil] at behind
  rw [foldl_indexBlob sequence opts labelled]
  dsimp only
  rw [behind, append_assoc]

/-- Filters listed with their blob types, those that were built. -/
theorem append_filterMap_built (sequence : Nat) (blobs : List Blob)
    (shared overlay : Option BlockedFilter) :
    blobs ++ ([(sharedFilterBlobType, shared), (overlayFilterBlobType, overlay)].filterMap
        fun filter => filter.2.map fun built => (filter.1, built)).map
        (fun filter => blob sequence filter.1 filter.2.encode []) =
      blobs ++ (shared.map fun f => blob sequence sharedFilterBlobType f.encode []).toList ++
        (overlay.map fun f => blob sequence overlayFilterBlobType f.encode []).toList := by
  rw [append_assoc]
  cases shared <;> cases overlay <;> rfl

/-- In a file every blob of a scope carries the scope. -/
theorem properties_scopes {sequence : Nat} {shared : List UInt8}
    {scopes : List (ScopeId × List (NodeId × NodeId))} {entries : List RegistryEntry}
    {encoding : RegistryEncoding} {sharedFilter overlayFilter : Option BlockedFilter} :
    ∀ b ∈ [blob sequence globalBlobType shared []] ++
        (scopes.map fun scope =>
          blob sequence scopeBlobType (table scope.2) (scopeProperties scope.1)) ++
        ((encodeRegistry entries encoding).map fun written =>
          blob sequence written.1 written.2 []).toList ++
        (sharedFilter.map fun f => blob sequence sharedFilterBlobType f.encode []).toList ++
        (overlayFilter.map fun f => blob sequence overlayFilterBlobType f.encode []).toList,
      b.blobType = scopeBlobType → b.properties = scopeProperties (scopeOf b) := by
  intro b member isScope
  simp only [mem_append, mem_singleton, mem_map, Option.mem_toList,
    Option.map_eq_some_iff] at member
  rcases member with
    (((rfl | ⟨scope, -, rfl⟩) | ⟨written, encoded, rfl⟩) | ⟨f, -, rfl⟩) | ⟨f, -, rfl⟩
  · exact absurd isScope (by decide : globalBlobType ≠ scopeBlobType)
  · rw [scopeOf_blob]
    rfl
  · have none := memberSource_registry encoded sequence
    unfold BlobWriter.memberSource at none
    rw [if_neg (by rw [isScope]; decide), if_pos isScope] at none
    cases none
  · exact absurd isScope (by decide : sharedFilterBlobType ≠ scopeBlobType)
  · exact absurd isScope (by decide : overlayFilterBlobType ≠ scopeBlobType)

section Tables

variable {pairs : List (NodeId × NodeId)}

theorem encodePairs_of_ascending (ascending : (pairs.map Prod.fst).Pairwise (· < ·)) :
    encodePairs pairs = table pairs := by
  rw [encodePairs, List.Pairwise.insertionSort_eq]
  exact (pairwise_map.mp ascending).imp le_of_lt

theorem map_tableKeys {α : Type} (few : pairs.length < 2 ^ 64) (f : UInt64 → α) :
    (tableKeys (table pairs)).map (fun pair => f (UInt64.ofNat pair.1)) =
      pairs.map fun pair => f (UInt64.ofNat pair.1) := by
  rw [tableKeys_table few, map_map]
  apply map_congr_left
  intro pair _
  exact congrArg f (UInt64.ofNat_mod_size ..)

end Tables

/-- A writer whose tables ascend and whose registry is the one of its tables writes the
blobs of the snapshot it would collect. -/
theorem snapshotToBlobs_eq {w : BlobWriter}
    (shared : (w.shared.map Prod.fst).Pairwise (· < ·)) (sharedFew : w.shared.length < 2 ^ 64)
    (scopes : ∀ scope ∈ w.scopeBlobs, (scope.2.map Prod.fst).Pairwise (· < ·))
    (scopesFew : ∀ scope ∈ w.scopeBlobs, scope.2.length < 2 ^ 64)
    (registry : registryFromSnapshot ⟨w.shared, w.scopeBlobs⟩ = SortDedup.sortDedup w.registry)
    (sequence : Nat) (opts : WriteOptions) :
    snapshotToBlobs ⟨w.shared, w.scopeBlobs⟩ sequence opts = w.finishBlobs sequence opts := by
  have scopeBlobs : (w.scopeBlobs.map fun scope =>
      blob sequence scopeBlobType (encodePairs scope.2) (scopeProperties scope.1)) =
        w.scopeBlobs.map fun scope =>
          blob sequence scopeBlobType (table scope.2) (scopeProperties scope.1) := by
    apply map_congr_left
    intro scope member
    rw [encodePairs_of_ascending (scopes scope member)]
  have overlayKeys : w.scopeBlobs.foldl (fun keys scope => keys + scope.2.length) 0 =
      w.scopeBlobs.foldl (fun keys scope => keys + (tableKeys (table scope.2)).length) 0 := by
    apply foldl_ext
    intro keys scope member
    rw [length_tableKeys_table, pairCount, Nat.mod_eq_of_lt (scopesFew scope member)]
  have overlayFilter : (w.scopeBlobs.flatMap fun scope =>
      scope.2.map fun pair => overlayKey scope.1 (UInt64.ofNat pair.1)) =
        w.scopeBlobs.flatMap fun scope =>
          (tableKeys (table scope.2)).map fun pair => overlayKey scope.1 (UInt64.ofNat pair.1) := by
    apply flatMap_congr
    intro scope member
    exact (map_tableKeys (scopesFew scope member) _).symm
  have sharedFilter := map_tableKeys sharedFew id
  simp only [id_eq] at sharedFilter
  unfold snapshotToBlobs BlobWriter.finishBlobs
  simp only [encodePairs_of_ascending shared, scopeBlobs, registry, overlayKeys, overlayFilter,
    sharedFilter, append_filterMap_built, foldl_map, flatMap_map, data_blob,
    scopeOf_blob, pairCount, Nat.mod_eq_of_lt sharedFew]
  cases opts.memberIndex with
  | false => rfl
  | true =>
    exact memberBlobs_eq sequence opts properties_scopes

/-! ## The registry of a snapshot -/

/-- Looking a node up in the collected map follows the table. -/
theorem getD_ofList_eq_tableRoot (ascending : (pairs.map Prod.fst).Pairwise (· < ·)) (x : NodeId) :
    (Std.TreeMap.ofList pairs : Std.TreeMap NodeId NodeId).getD x x = tableRoot pairs x := by
  have distinct : (pairs.map Prod.fst).Nodup := ascending.imp ne_of_lt
  by_cases key : x ∈ pairs.map Prod.fst
  · obtain ⟨pair, member, rfl⟩ := mem_map.mp key
    rw [tableRoot_of_mem distinct member]
    apply Std.TreeMap.getD_ofList_of_mem (compare_eq_iff_eq.mpr rfl) _ member
    apply (pairwise_map.mp distinct).imp
    intro first second different same
    exact different (compare_eq_iff_eq.mp same)
  · rw [tableRoot_of_not_mem key]
    apply Std.TreeMap.getD_ofList_of_contains_eq_false
    simpa using key

/-! ## Tables of a stream -/

section Stream

variable {V : View NodeId ScopeId} {scopes : List ScopeId} {keys : ScopeId → List NodeId}

theorem mem_tableOf_filter {f : NodeId → NodeId} :
    (k, r) ∈ tableOf (visited.filter fun k => f k ≠ k) f ↔ k ∈ visited ∧ f k ≠ k ∧ f k = r := by
  simp only [tableOf, mem_map, mem_filter, decide_eq_true_eq, Prod.mk.injEq]
  constructor
  · rintro ⟨k, ⟨visited, moved⟩, rfl, same⟩
    exact ⟨visited, moved, same⟩
  · rintro ⟨visited, moved, same⟩
    exact ⟨k, ⟨visited, moved⟩, rfl, same⟩

theorem mem_sharedTable :
    (k, r) ∈ sharedTable V visited ↔ k ∈ visited ∧ V.shared k ≠ k ∧ V.shared k = r := by
  simp only [sharedTable, mem_tableOf_filter]

theorem mem_overlayTable :
    (k, r) ∈ overlayTable V s visited ↔ k ∈ visited ∧ V.overlay s k ≠ k ∧ V.overlay s k = r := by
  simp only [overlayTable, mem_tableOf_filter]

/-- The scopes that get a table, each with its pairs. -/
theorem mem_scopeBlobs :
    (s, pairs) ∈ (scopes.flatMap fun s =>
        if (overlayTable V s (keys s)).isEmpty then [] else [(s, overlayTable V s (keys s))]) ↔
      s ∈ scopes ∧ pairs = overlayTable V s (keys s) ∧ pairs ≠ [] := by
  rw [mem_flatMap]
  constructor
  · rintro ⟨s, listed, written⟩
    split at written
    · cases written
    · next nonempty =>
        cases mem_singleton.mp written
        exact ⟨listed, rfl, by simpa using nonempty⟩
  · rintro ⟨listed, rfl, nonempty⟩
    refine ⟨s, listed, ?_⟩
    rw [if_neg (by simpa using nonempty)]
    exact mem_singleton_self _

end Stream

section Forest

variable {t : Tier LayeredBase}

theorem resolved_sharedTable (wellFormed : t.WellFormed) :
    Resolved (sharedTable t.view t.compactSharedKeys) := by
  have full := (ScopedForest.fullBase_wellFormed wellFormed).shared
  rwa [ScopedForest.fullBase, writtenBase_shared] at full

theorem resolved_overlayTable (wellFormed : t.WellFormed) (listed : s ∈ t.compactScopes) :
    Resolved (overlayTable t.view s (t.compactKeys s)) := by
  have full := (ScopedForest.fullBase_wellFormed wellFormed).overlays s
  rwa [ScopedForest.fullBase, writtenBase_overlay, if_pos listed] at full

theorem getD_sharedTable (wellFormed : t.WellFormed) (x : NodeId) :
    (Std.TreeMap.ofList (sharedTable t.view t.compactSharedKeys) :
      Std.TreeMap NodeId NodeId).getD x x = t.view.shared x := by
  have root := congrFun (ScopedForest.fullBase_sharedRoot wellFormed) x
  rw [PuffinBase.sharedRoot, ScopedForest.fullBase, writtenBase_shared] at root
  rw [getD_ofList_eq_tableRoot (resolved_sharedTable wellFormed).ascending, root]

/-- The registry that is derived from the collected maps is the one that was streamed. -/
theorem registryFromSnapshot_eq (wellFormed : t.WellFormed) :
    registryFromSnapshot ⟨sharedTable t.view t.compactSharedKeys,
        t.compactScopes.flatMap fun s =>
          if (overlayTable t.view s (t.compactKeys s)).isEmpty then []
          else [(s, overlayTable t.view s (t.compactKeys s))]⟩ =
      SortDedup.sortDedup (writtenEntries t.view t.compactScopes t.compactKeys) := by
  unfold registryFromSnapshot
  apply (SortDedup.sortDedup_ascending _).eq_of_mem_iff (SortDedup.sortDedup_ascending _)
  intro entry
  obtain ⟨root, scope⟩ := entry
  change registryEntry root scope ∈ _ ↔ registryEntry root scope ∈ _
  rw [SortDedup.mem_sortDedup, SortDedup.mem_sortDedup, mem_writtenEntries]
  simp only [getD_sharedTable wellFormed]
  constructor
  · intro derived
    obtain ⟨⟨s, pairs⟩, written, derived⟩ := mem_flatMap.mp derived
    obtain ⟨⟨k, r⟩, pair, derived⟩ := mem_flatMap.mp derived
    obtain ⟨member, endpoint, same⟩ := mem_map.mp derived
    obtain ⟨listed, rfl, -⟩ := mem_scopeBlobs.mp written
    obtain ⟨key, moved, rfl⟩ := mem_overlayTable.mp pair
    cases same
    refine ⟨listed, k, key, moved, ?_⟩
    rcases mem_cons.mp endpoint with rfl | last
    · exact Or.inl rfl
    · rw [mem_singleton.mp last]
      exact Or.inr rfl
  · rintro ⟨listed, k, key, moved, live⟩
    have pair := mem_overlayTable.mpr ⟨key, moved, rfl⟩
    have written := mem_scopeBlobs.mpr ⟨listed, rfl, ne_nil_of_mem pair⟩
    refine mem_flatMap.mpr ⟨_, written, mem_flatMap.mpr ⟨_, pair, ?_⟩⟩
    rcases live with rfl | rfl
    · exact mem_map.mpr ⟨k, mem_cons_self, rfl⟩
    · exact mem_map.mpr ⟨_, mem_cons_of_mem _ mem_cons_self, rfl⟩

/-- A forest whose tables are not too long is written the same by way of a snapshot. -/
theorem compactToBlobs_eq {f : ScopedForest LayeredBase} (wellFormed : f.tier.WellFormed)
    (sharedFew : (sharedTable f.tier.view f.tier.compactSharedKeys).length < 2 ^ 64)
    (scopesFew : ∀ s ∈ f.tier.compactScopes,
      (overlayTable f.tier.view s (f.tier.compactKeys s)).length < 2 ^ 64)
    (sequence : Nat) (opts : WriteOptions) :
    compactToBlobs f sequence opts = snapshotToBlobs f.snapshot.2 sequence opts := by
  have collected : f.snapshot.2 =
      let w := f.compactInto.2.foldl BlobWriter.receive BlobWriter.new
      ⟨w.shared, w.scopeBlobs⟩ := by
    have tables := foldl_receive_collector f.compactInto.2 BlobWriter.new
    exact congrArg (fun c : SnapshotCollector => (⟨c.global, c.scopes⟩ : ForestSnapshot)) tables
  have calls : f.compactInto.2 = f.tier.compactLocked.2 := rfl
  rw [collected, compactToBlobs]
  dsimp only
  rw [calls, (Tier.compactLocked_spec wellFormed).2, writer_eq]
  symm
  apply snapshotToBlobs_eq
  · exact (resolved_sharedTable wellFormed).ascending
  · exact sharedFew
  · rintro ⟨s, pairs⟩ written
    obtain ⟨listed, rfl, -⟩ := mem_scopeBlobs.mp written
    exact (resolved_overlayTable wellFormed listed).ascending
  · rintro ⟨s, pairs⟩ written
    obtain ⟨listed, rfl, -⟩ := mem_scopeBlobs.mp written
    exact scopesFew s listed
  · exact registryFromSnapshot_eq wellFormed

end Forest

/-! ## Every forest with a past -/

/-- Whoever is connected to another node is an endpoint of an event. -/
theorem endpoint_of_reachable {events : Set EdgeEvent} {x y : NodeId}
    (path : (visibleGraph events s).Reachable x y) (different : y ≠ x) :
    ∃ event ∈ events, event.src = x ∨ event.dst = x := by
  rw [SimpleGraph.reachable_iff_reflTransGen] at path
  rcases path.cases_head with rfl | ⟨z, adjacent, -⟩
  · exact absurd rfl different
  · obtain ⟨-, event, member, -, ⟨source, -⟩ | ⟨-, target⟩⟩ := visibleGraph_adj.mp adjacent
    · exact ⟨event, member, Or.inl source⟩
    · exact ⟨event, member, Or.inr target⟩

/-- Every forest that comes about by applies, folds, merges and cold starts on 64-bit
nodes is written to the same blobs, byte for byte, by the streaming writer and by way of
its snapshot. -/
theorem snapshot_blobs_eq {events : List EdgeEvent} {d : DiskForest} (lineage : Lineage events d)
    (ids : ∀ event ∈ events, event.src < 2 ^ 64 ∧ event.dst < 2 ^ 64) (sequence : Nat)
    (opts : WriteOptions) :
    compactToBlobs d.forest sequence opts = snapshotToBlobs d.forest.snapshot.2 sequence opts := by
  have represents := lineage.settled.onDisk.represents
  have wellFormed := represents.wellFormed
  have small : ∀ {s x y}, (visibleGraph {event | event ∈ events} s).Reachable x y → y ≠ x →
      x < 2 ^ 64 := by
    intro s x y path different
    obtain ⟨event, member, rfl | rfl⟩ := endpoint_of_reachable path different
    · exact (ids event member).1
    · exact (ids event member).2
  apply compactToBlobs_eq wellFormed
  · apply (resolved_sharedTable wellFormed).length_lt (by decide)
    rintro ⟨k, r⟩ pair
    obtain ⟨-, moved, -⟩ := mem_sharedTable.mp pair
    exact small (represents.view.shared.sound k) moved
  · intro s listed
    apply (resolved_overlayTable wellFormed listed).length_lt (by decide)
    rintro ⟨k, r⟩ pair
    obtain ⟨-, moved, -⟩ := mem_overlayTable.mp pair
    exact small (represents.view.sound s k) moved

/-- Two folds and every part of the encoding on. -/
theorem snapshot_blobs_eq_foldedTwice :
    compactToBlobs foldedTwice.forest 3 ⟨10, .blocked, true, .blocked⟩ =
      snapshotToBlobs foldedTwice.forest.snapshot.2 3 ⟨10, .blocked, true, .blocked⟩ :=
  snapshot_blobs_eq lineage_foldedTwice (by decide) 3 _

end Blaze
