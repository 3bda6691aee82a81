import Blaze.Storage.BaseParts
import Blaze.Storage.MemberWalk
import Blaze.Storage.SnapshotBytes

/-!
# Filters hide no key

A forest snapshot is written as tables, a registry, a member index and filters over the
keys of the tables.  The blobs are sound whatever the number of bits per key, and only
the filters depend on it, so that a base opened from the file answers like one that has
no filters at all.  The parents and children it finds are those in the tables that the
forest streamed out.
-/

namespace Blaze

open List Bytes

variable {pairs : List (NodeId × NodeId)} {b : Blob} {encoding : MemberEncoding} {tier : MemberTier}
  {written : String × List UInt8 × List NodeId} {snap : ForestSnapshot} {slot : Slot}

/-! ## Encoded tables -/

theorem table_eq_tableBytes (few : pairs.length < 2 ^ 64) : table pairs = tableBytes 8 pairs := by
  rw [table, pairCount, Nat.mod_eq_of_lt few]
  rfl

/-- The pairs in the order of an encoded table. -/
def sortedPairs (pairs : List (NodeId × NodeId)) : List (NodeId × NodeId) :=
  pairs.insertionSort fun first second => first.1 ≤ second.1

@[simp]
theorem mem_sortedPairs {pair : NodeId × NodeId} : pair ∈ sortedPairs pairs ↔ pair ∈ pairs :=
  mem_insertionSort _

theorem length_encodePairs (pairs : List (NodeId × NodeId)) :
    (encodePairs pairs).length = 8 + pairs.length * 16 := by
  have entries := length_entries 8 (sortedPairs pairs)
  rw [sortedPairs, length_insertionSort] at entries
  rw [encodePairs, table, length_append, length_putLe]
  exact congrArg (8 + ·) entries

/-- A table that fits into a file has few enough pairs to be counted. -/
theorem length_lt_of_encodePairs (short : (encodePairs pairs).length < 2 ^ 63) :
    pairs.length < 2 ^ 64 := by
  rw [length_encodePairs] at short
  omega

theorem encodePairs_eq (short : (encodePairs pairs).length < 2 ^ 63) :
    encodePairs pairs = tableBytes 8 (sortedPairs pairs) := by
  apply table_eq_tableBytes
  rw [length_insertionSort]
  exact length_lt_of_encodePairs short

/-- Every id of the pairs is a 64-bit number. -/
def SmallIds (pairs : List (NodeId × NodeId)) : Prop :=
  ∀ pair ∈ pairs, pair.1 < 2 ^ 64 ∧ pair.2 < 2 ^ 64

instance : DecidablePred SmallIds :=
  fun pairs => inferInstanceAs (Decidable (∀ pair ∈ pairs, pair.1 < 2 ^ 64 ∧ pair.2 < 2 ^ 64))

theorem tabulates_encodePairs (data : b.data = encodePairs pairs)
    (short : (encodePairs pairs).length < 2 ^ 63) (ids : SmallIds pairs) :
    b.Tabulates (sortedPairs pairs) where
  data := data.trans (encodePairs_eq short)
  keys := fun pair member => (ids pair (mem_sortedPairs.mp member)).1
  values := fun pair member => (ids pair (mem_sortedPairs.mp member)).2

/-! ## Encoded member indexes -/

/-- The pairs of parent and child that the index of a table has. -/
def memberPairs (pairs : List (NodeId × NodeId)) : List (NodeId × NodeId) :=
  (invertPairs (tableKeys (encodePairs pairs))).map ofLex

theorem memberPairs_ascending (pairs : List (NodeId × NodeId)) :
    (memberPairs pairs).Pairwise fun first second => toLex first ≤ toLex second := by
  rw [memberPairs, pairwise_map]
  exact pairwise_insertionSort _ _

theorem smallIds_memberPairs (short : (encodePairs pairs).length < 2 ^ 63) :
    SmallIds (memberPairs pairs) := by
  have few : (sortedPairs pairs).length < 2 ^ 64 := by
    rw [sortedPairs, length_insertionSort]
    exact length_lt_of_encodePairs short
  intro pair member
  obtain ⟨entry, listed, rfl⟩ := mem_map.mp member
  rw [encodePairs, ← sortedPairs, tableKeys_table few, invertPairs, mem_insertionSort]
    at listed
  obtain ⟨source, kept, rfl⟩ := mem_map.mp listed
  obtain ⟨original, -, rfl⟩ := mem_map.mp (mem_of_mem_filter kept)
  exact ⟨Nat.mod_lt _ (by decide), Nat.mod_lt _ (by decide)⟩

/-- Every parent is collected once. -/
theorem mem_parents {pairs : List (NodeId ×ₗ NodeId)} {parents : List NodeId} {parent : NodeId}
    (known : parent ∈ parents ∨ ∃ pair ∈ pairs, (ofLex pair).1 = parent) :
    parent ∈ pairs.foldl (fun parents pair =>
      if parents.getLast? ≠ some (ofLex pair).1 then parents ++ [(ofLex pair).1] else parents)
      parents := by
  induction pairs generalizing parents with
  | nil =>
    rcases known with member | ⟨pair, listed, -⟩
    · exact member
    · cases listed
  | cons pair pairs ih =>
    apply ih
    dsimp only
    rcases known with member | ⟨other, listed, same⟩
    · left
      split
      · exact mem_append_left _ member
      · exact member
    · rcases mem_cons.mp listed with rfl | later
      · left
        subst same
        split
        · exact mem_append_right _ mem_cons_self
        · next last => exact mem_of_getLast? (not_not.mp last)
      · exact Or.inr ⟨other, later, same⟩

/-- What is written for the index of a table, and the parents that its filter is made
from. -/
theorem of_encodeMembers
    (encoded : encodeMembers (encodePairs pairs) encoding tier = some written) :
    ((MemberWriter.new encoding tier).pushAll (memberPairs pairs)).finish =
        some (written.1, written.2.1) ∧
      ∀ pair ∈ memberPairs pairs, pair.1 ∈ written.2.2 := by
  unfold encodeMembers at encoded
  dsimp only at encoded
  obtain ⟨⟨blobType, payload⟩, finishes, rfl⟩ := Option.map_eq_some_iff.mp encoded
  constructor
  · dsimp only
    rw [← finishes, MemberWriter.pushAll, memberPairs, foldl_map]
  · intro pair member
    obtain ⟨entry, listed, rfl⟩ := mem_map.mp member
    dsimp only
    exact mem_parents (Or.inr ⟨entry, listed, rfl⟩)

theorem indexes_encodeMembers
    (encoded : encodeMembers (encodePairs pairs) encoding tier = some written)
    (blobType : b.blobType = written.1) (data : b.data = written.2.1)
    (short : (encodePairs pairs).length < 2 ^ 63) : b.Indexes (memberPairs pairs) := by
  intro file start stop mapped sliced
  rw [blobType]
  rw [data] at sliced
  exact members_answer (memberPairs_ascending pairs)
    (fun pair member => (smallIds_memberPairs short pair member).1)
    (fun pair member => (smallIds_memberPairs short pair member).2)
    (fun _ => packs_counted (by decide) _) (of_encodeMembers encoded).1 sliced mapped

/-- A table with children is indexed. -/
theorem exists_encodeMembers (filled : memberPairs pairs ≠ []) (encoding : MemberEncoding)
    (tier : MemberTier) :
    ∃ written, encodeMembers (encodePairs pairs) encoding tier = some written := by
  have finishes : ((MemberWriter.new encoding tier).pushAll (memberPairs pairs)).finish ≠ none :=
    mt (MemberWriter.finish_pushAll_eq_none_iff encoding tier _ _).mp filled
  rw [MemberWriter.pushAll, memberPairs, foldl_map] at finishes
  obtain ⟨written, finished⟩ := Option.ne_none_iff_exists'.mp finishes
  unfold encodeMembers
  dsimp only
  rw [finished]
  exact ⟨_, rfl⟩

/-- The kind of the member blobs of a tier. -/
def MemberTier.kind : MemberTier → BlobKind
  | .shared => .sharedMembers
  | .overlay => .overlayMembers

theorem blobKind_encodeMembers
    (encoded : encodeMembers (encodePairs pairs) encoding tier = some written) :
    blobKind written.1 = some tier.kind := by
  have finished := (of_encodeMembers encoded).1
  generalize written.1 = blobType at finished ⊢
  generalize written.2.1 = payload at finished
  unfold MemberWriter.new at finished
  cases encoding with
  | flat =>
    rw [MemberWriter.pushAll_flat, MemberWriter.finish] at finished
    split at finished
    · cases finished
    · cases tier <;> cases finished <;> decide
  | blocked =>
    rw [MemberWriter.pushAll_blocked, MemberWriter.finish] at finished
    split at finished
    · cases finished
    · cases tier <;> cases finished <;> decide

/-! ## The registry -/

/-- The ids and scopes of a snapshot are machine numbers. -/
structure ForestSnapshot.Small (snap : ForestSnapshot) : Prop where
  global : SmallIds snap.global
  scopes : ∀ scope ∈ snap.scopes, scope.1 < 2 ^ 32 ∧ SmallIds scope.2

theorem encodeRegistry_eq (entries : List RegistryEntry) (encoding : RegistryEncoding) :
    encodeRegistry entries encoding =
      ((RegistryWriter.new encoding).pushAll (entries.map ofLex)).finish := by
  rw [encodeRegistry, RegistryWriter.pushAll, foldl_map]

theorem registryFromSnapshot_ascending (snap : ForestSnapshot) :
    ((registryFromSnapshot snap).map ofLex).Pairwise
      fun first second => toLex first < toLex second := by
  rw [pairwise_map]
  exact SortDedup.sortDedup_ascending _

theorem ForestSnapshot.Small.registry (small : snap.Small) {entry : RegistryEntry}
    (member : entry ∈ registryFromSnapshot snap) :
    (ofLex entry).1 < 2 ^ 64 ∧ (ofLex entry).2 < 2 ^ 32 := by
  rw [registryFromSnapshot, SortDedup.mem_sortDedup] at member
  obtain ⟨scope, listed, member⟩ := mem_flatMap.mp member
  obtain ⟨pair, inScope, member⟩ := mem_flatMap.mp member
  obtain ⟨node, isNode, rfl⟩ := mem_map.mp member
  obtain ⟨smallScope, ids⟩ := small.scopes scope listed
  have smallNode : node < 2 ^ 64 := by
    rcases mem_pair.mp isNode with rfl | rfl
    · exact (ids pair inScope).1
    · exact (ids pair inScope).2
  refine ⟨?_, smallScope⟩
  change (Std.TreeMap.ofList snap.global : Std.TreeMap NodeId NodeId).getD node node < 2 ^ 64
  rw [Std.TreeMap.getD_eq_getD_getElem?]
  cases found : (Std.TreeMap.ofList snap.global : Std.TreeMap NodeId NodeId)[node]? with
  | none => exact smallNode
  | some root =>
    obtain ⟨source, inGlobal, rfl⟩ := KeyedMap.exists_of_getElem?_ofList found
    exact (small.global source inGlobal).2

/-- Without a registry there is no pair in any scope. -/
theorem empty_of_encodeRegistry {encoding : RegistryEncoding}
    (unwritten : encodeRegistry (registryFromSnapshot snap) encoding = none) :
    ∀ scope ∈ snap.scopes, scope.2 = [] := by
  rw [encodeRegistry_eq, RegistryWriter.new, RegistryWriter.finish_pushAll_eq_none_iff _ _
    (registryFromSnapshot_ascending snap), map_eq_nil_iff] at unwritten
  intro scope listed
  rw [eq_nil_iff_forall_not_mem]
  intro pair inScope
  have entered : registryEntry ((Std.TreeMap.ofList snap.global :
      Std.TreeMap NodeId NodeId).getD pair.1 pair.1) scope.1 ∈ registryFromSnapshot snap := by
    rw [registryFromSnapshot, SortDedup.mem_sortDedup]
    refine mem_flatMap.mpr ⟨scope, listed, mem_flatMap.mpr ⟨pair, inScope, ?_⟩⟩
    exact mem_cons_self
  rw [unwritten] at entered
  cases entered

theorem blobKind_encodeRegistry {entries : List RegistryEntry} {encoding : RegistryEncoding}
    {written : String × List UInt8} (encoded : encodeRegistry entries encoding = some written) :
    blobKind written.1 = some .registry := by
  unfold encodeRegistry RegistryWriter.finish at encoded
  split at encoded
  · cases encoded
  · split at encoded
    · cases encoded
      exact (by decide : blobKind registryFlatBlobType = some .registry)
    · cases encoded
      exact (by decide : blobKind registryBlockedBlobType = some .registry)

theorem registers_encodeRegistry (small : snap.Small) {encoding : RegistryEncoding}
    {written : String × List UInt8}
    (encoded : encodeRegistry (registryFromSnapshot snap) encoding = some written)
    (blobType : b.blobType = written.1) (data : b.data = written.2) : b.Registers := by
  intro file start stop mapped sliced
  rw [blobType]
  rw [data] at sliced
  rw [encodeRegistry_eq, RegistryWriter.new] at encoded
  obtain ⟨t, parsed, -⟩ := registry_answers (registryFromSnapshot_ascending snap)
    (fun entry member => by
      obtain ⟨source, listed, rfl⟩ := mem_map.mp member
      exact (small.registry listed).1)
    (fun entry member => by
      obtain ⟨source, listed, rfl⟩ := mem_map.mp member
      exact (small.registry listed).2)
    (fun _ => packs_counted (by decide) _) encoded sliced mapped
  exact ⟨t, parsed⟩

/-! ## The blobs of a snapshot -/

section Blobs

variable (snap : ForestSnapshot) (sequence : Nat)

def tableBlobs : List Blob :=
  [blob sequence globalBlobType (encodePairs snap.global) []] ++
    snap.scopes.map fun scope =>
      blob sequence scopeBlobType (encodePairs scope.2) (scopeProperties scope.1)

def registryBlobs (encoding : RegistryEncoding) : List Blob :=
  ((encodeRegistry (registryFromSnapshot snap) encoding).map fun written =>
    blob sequence written.1 written.2 []).toList

def memberBlobs (encoding : MemberEncoding) : List Blob :=
  ((encodeMembers (encodePairs snap.global) encoding .shared).map fun written =>
      blob sequence written.1 written.2.1 []).toList ++
    snap.scopes.filterMap fun scope =>
      (encodeMembers (encodePairs scope.2) encoding .overlay).map fun written =>
        blob sequence written.1 written.2.1 (scopeProperties scope.1)

/-- The parents in the shared table. -/
def sharedParents (encoding : MemberEncoding) : List NodeId :=
  ((encodeMembers (encodePairs snap.global) encoding .shared).map fun written =>
    written.2.2).getD []

/-- The parents in each overlay. -/
def overlayParents (encoding : MemberEncoding) : List (ScopeId × List NodeId) :=
  snap.scopes.filterMap fun scope =>
    (encodeMembers (encodePairs scope.2) encoding .overlay).map fun written =>
      (scope.1, written.2.2)

namespace FilterKind

def blobType : FilterKind → String
  | .shared => sharedFilterBlobType
  | .overlay => overlayFilterBlobType
  | .sharedMembers => sharedMembersFilterBlobType
  | .overlayMembers => overlayMembersFilterBlobType

/-- The keys that a filter of a snapshot is built over. -/
def keys (encoding : MemberEncoding) : FilterKind → List UInt64
  | .shared => snap.global.map fun pair => UInt64.ofNat pair.1
  | .overlay => snap.scopes.flatMap fun scope =>
      scope.2.map fun pair => overlayKey scope.1 (UInt64.ofNat pair.1)
  | .sharedMembers => (sharedParents snap encoding).map UInt64.ofNat
  | .overlayMembers => (overlayParents snap encoding).flatMap fun scope =>
      scope.2.map fun key => overlayKey scope.1 (UInt64.ofNat key)

/-- The number of keys that a filter of a snapshot is sized for. -/
def hint (encoding : MemberEncoding) : FilterKind → Nat
  | .shared => snap.global.length
  | .overlay => snap.scopes.foldl (fun keys scope => keys + scope.2.length) 0
  | .sharedMembers => (sharedParents snap encoding).length
  | .overlayMembers =>
      (overlayParents snap encoding).foldl (fun keys scope => keys + scope.2.length) 0

end FilterKind

def filterBlobs (opts : WriteOptions) (kinds : List FilterKind) : List Blob :=
  kinds.filterMap fun kind =>
    (BlockedFilter.buildWith (kind.keys snap opts.members) (kind.hint snap opts.members)
      opts.filterBits).map fun filter => blob sequence kind.blobType filter.encode []

end Blobs

/-- A blob of a snapshot, with its place. -/
inductive SnapshotBlob (snap : ForestSnapshot) (sequence : Nat) (opts : WriteOptions) :
    Slot → Blob → Prop where
  | shared : SnapshotBlob snap sequence opts .shared
      (blob sequence globalBlobType (encodePairs snap.global) [])
  | overlay {scope : ScopeId × List (NodeId × NodeId)} (listed : scope ∈ snap.scopes) :
      SnapshotBlob snap sequence opts (.overlay scope.1)
        (blob sequence scopeBlobType (encodePairs scope.2) (scopeProperties scope.1))
  | registry {written : String × List UInt8}
      (encoded : encodeRegistry (registryFromSnapshot snap) opts.registry = some written) :
      SnapshotBlob snap sequence opts .registry (blob sequence written.1 written.2 [])
  | sharedMembers (on : opts.memberIndex) {written : String × List UInt8 × List NodeId}
      (encoded : encodeMembers (encodePairs snap.global) opts.members .shared = some written) :
      SnapshotBlob snap sequence opts .sharedMembers (blob sequence written.1 written.2.1 [])
  | overlayMembers (on : opts.memberIndex) {scope : ScopeId × List (NodeId × NodeId)}
      (listed : scope ∈ snap.scopes) {written : String × List UInt8 × List NodeId}
      (encoded : encodeMembers (encodePairs scope.2) opts.members .overlay = some written) :
      SnapshotBlob snap sequence opts (.overlayMembers scope.1)
        (blob sequence written.1 written.2.1 (scopeProperties scope.1))
  | filter (kind : FilterKind) {filter : BlockedFilter}
      (built : BlockedFilter.buildWith (kind.keys snap opts.members) (kind.hint snap opts.members)
        opts.filterBits = some filter) :
      SnapshotBlob snap sequence opts (.filter kind) (blob sequence kind.blobType filter.encode [])

section Layout

variable {snap : ForestSnapshot} {sequence : Nat} {opts : WriteOptions}

theorem slot_eq_of_blobKind {kind : BlobKind} (isKind : blobKind b.blobType = some kind) :
    b.slot = some (kind.slot (scopeOf b)) := by
  rw [Blob.slot, isKind, Option.map_some]

theorem slot_blob {blobType : String} {kind : BlobKind} (isKind : blobKind blobType = some kind)
    (sequence : Nat) (data : List UInt8) (properties : List (String × String)) :
    (blob sequence blobType data properties).slot =
      some (kind.slot (scopeOf (blob sequence blobType data properties))) :=
  slot_eq_of_blobKind isKind

theorem SnapshotBlob.slot_eq (written : SnapshotBlob snap sequence opts slot b) :
    b.slot = some slot := by
  cases written with
  | shared => exact slot_blob (by decide : blobKind globalBlobType = some .shared) sequence _ _
  | overlay listed =>
    rw [slot_blob (by decide : blobKind scopeBlobType = some .overlay), scopeOf_blob]
    rfl
  | registry encoded => exact slot_blob (blobKind_encodeRegistry encoded) sequence _ _
  | sharedMembers on encoded => exact slot_blob (blobKind_encodeMembers encoded) sequence _ _
  | overlayMembers on listed encoded =>
    rw [slot_blob (blobKind_encodeMembers encoded), scopeOf_blob]
    rfl
  | filter kind built =>
    have isFilter : blobKind kind.blobType = some (.filter kind) := by
      cases kind <;> decide
    exact slot_blob isFilter sequence _ _

theorem written_tableBlobs (member : b ∈ tableBlobs snap sequence) :
    ∃ slot, SnapshotBlob snap sequence opts slot b := by
  rcases mem_append.mp member with isShared | isOverlay
  · rw [mem_singleton.mp isShared]
    exact ⟨_, .shared⟩
  · obtain ⟨scope, listed, rfl⟩ := mem_map.mp isOverlay
    exact ⟨_, .overlay listed⟩

theorem written_registryBlobs (member : b ∈ registryBlobs snap sequence opts.registry) :
    SnapshotBlob snap sequence opts .registry b := by
  obtain ⟨written, encoded, rfl⟩ := Option.map_eq_some_iff.mp (Option.mem_toList.mp member)
  exact .registry encoded

theorem written_memberBlobs (on : opts.memberIndex)
    (member : b ∈ memberBlobs snap sequence opts.members) :
    ∃ slot, SnapshotBlob snap sequence opts slot b := by
  rcases mem_append.mp member with isShared | isOverlay
  · obtain ⟨written, encoded, rfl⟩ := Option.map_eq_some_iff.mp (Option.mem_toList.mp isShared)
    exact ⟨_, .sharedMembers on encoded⟩
  · obtain ⟨scope, listed, indexed⟩ := mem_filterMap.mp isOverlay
    obtain ⟨written, encoded, rfl⟩ := Option.map_eq_some_iff.mp indexed
    exact ⟨_, .overlayMembers on listed encoded⟩

theorem written_filterBlobs {kinds : List FilterKind}
    (member : b ∈ filterBlobs snap sequence opts kinds) :
    ∃ kind, SnapshotBlob snap sequence opts (.filter kind) b := by
  obtain ⟨kind, -, built⟩ := mem_filterMap.mp member
  obtain ⟨filter, builds, rfl⟩ := Option.map_eq_some_iff.mp built
  exact ⟨kind, .filter kind builds⟩

/-- Blobs that are no tables are not indexed. -/
theorem foldl_indexBlob_other {blobs : List Blob}
    (other : ∀ b ∈ blobs, b.slot ≠ some .shared ∧ ∀ scope, b.slot ≠ some (.overlay scope))
    (out : MemberBlobs) : blobs.foldl (indexBlob sequence opts) out = out := by
  induction blobs generalizing out with
  | nil => rfl
  | cons b blobs ih =>
    obtain ⟨notShared, notOverlay⟩ := other b mem_cons_self
    have global : b.blobType ≠ globalBlobType := fun same =>
      notShared (slot_eq_of_blobKind (same ▸ by decide : blobKind b.blobType = some .shared))
    have scope : b.blobType ≠ scopeBlobType := fun same =>
      notOverlay _ (slot_eq_of_blobKind (same ▸ by decide : blobKind b.blobType = some .overlay))
    rw [foldl_cons, indexBlob, if_neg global, if_neg scope]
    exact ih (fun b member => other b (mem_cons_of_mem _ member)) out

/-- The overlays are indexed one after the other. -/
theorem foldl_indexBlob_overlays (scopes : List (ScopeId × List (NodeId × NodeId)))
    (out : MemberBlobs) :
    (scopes.map fun scope => blob sequence scopeBlobType (encodePairs scope.2)
        (scopeProperties scope.1)).foldl (indexBlob sequence opts) out =
      { out with
        overlayParents := out.overlayParents ++ overlayParents ⟨[], scopes⟩ opts.members
        blobs := out.blobs ++ scopes.filterMap fun scope =>
          (encodeMembers (encodePairs scope.2) opts.members .overlay).map fun written =>
            blob sequence written.1 written.2.1 (scopeProperties scope.1) } := by
  induction scopes generalizing out with
  | nil => simp [overlayParents]
  | cons scope scopes ih =>
    rw [map_cons, foldl_cons, ih]
    have isScope : (blob sequence scopeBlobType (encodePairs scope.2)
        (scopeProperties scope.1)).blobType = scopeBlobType := rfl
    rw [indexBlob, if_neg (by rw [isScope]; decide), if_pos isScope, scopeOf_blob, data_blob]
    simp only [overlayParents, filterMap_cons]
    cases encodeMembers (encodePairs scope.2) opts.members .overlay with
    | none => simp
    | some written => simp [blob]

/-- What the tables, the registry and the filters of a snapshot are indexed as. -/
theorem foldl_indexBlob_snapshot :
    (tableBlobs snap sequence ++ registryBlobs snap sequence opts.registry ++
        filterBlobs snap sequence opts [.shared, .overlay]).foldl (indexBlob sequence opts)
        ⟨[], [], []⟩ =
      ⟨memberBlobs snap sequence opts.members, sharedParents snap opts.members,
        overlayParents snap opts.members⟩ := by
  have registry := @foldl_indexBlob_other sequence opts
    (registryBlobs snap sequence opts.registry) fun b member => by
      rw [(written_registryBlobs member).slot_eq]
      simp
  have filters := @foldl_indexBlob_other sequence opts
    (filterBlobs snap sequence opts [.shared, .overlay]) fun b member => by
      obtain ⟨kind, written⟩ := written_filterBlobs member
      rw [written.slot_eq]
      simp
  have isGlobal : (blob sequence globalBlobType (encodePairs snap.global) []).blobType =
      globalBlobType := rfl
  rw [foldl_append, foldl_append, filters, registry, tableBlobs, foldl_append,
    foldl_indexBlob_overlays, foldl_cons, foldl_nil, indexBlob, if_pos isGlobal,
    data_blob]
  unfold memberBlobs sharedParents
  cases encodeMembers (encodePairs snap.global) opts.members .shared with
  | none => rfl
  | some written => rfl

/-- Two filters, as the writers make their blobs. -/
theorem filterBlobs_pair (first second : FilterKind) :
    filterBlobs snap sequence opts [first, second] =
      ([(first.blobType, BlockedFilter.buildWith (first.keys snap opts.members)
            (first.hint snap opts.members) opts.filterBits),
          (second.blobType, BlockedFilter.buildWith (second.keys snap opts.members)
            (second.hint snap opts.members) opts.filterBits)].filterMap
        fun filter => filter.2.map fun built => (filter.1, built)).map
          fun filter => blob sequence filter.1 filter.2.encode [] := by
  rw [map_filterMap]
  simp only [filterBlobs, filterMap_cons, filterMap_nil, Option.map_map]
  rfl

/-- The blobs of a snapshot: its tables and registry, the filters over the tables, and
the member index with the filters over it. -/
theorem snapshotToBlobs_eq_append :
    snapshotToBlobs snap sequence opts =
      tableBlobs snap sequence ++ registryBlobs snap sequence opts.registry ++
        filterBlobs snap sequence opts [.shared, .overlay] ++
        if opts.memberIndex then
          memberBlobs snap sequence opts.members ++
            filterBlobs snap sequence opts [.sharedMembers, .overlayMembers]
        else
          [] := by
  have indexed := @foldl_indexBlob_snapshot snap sequence opts
  rw [filterBlobs_pair] at indexed
  rw [filterBlobs_pair, filterBlobs_pair]
  unfold snapshotToBlobs
  dsimp only [tableBlobs, registryBlobs, FilterKind.blobType, FilterKind.keys, FilterKind.hint]
    at indexed ⊢
  rw [indexed]
  split
  · rw [memberFilters]
  · rw [append_nil]

theorem written_of_mem (member : b ∈ snapshotToBlobs snap sequence opts) :
    ∃ slot, SnapshotBlob snap sequence opts slot b := by
  rw [snapshotToBlobs_eq_append, append_assoc, append_assoc] at member
  rcases mem_append.mp member with inTables | member
  · exact written_tableBlobs inTables
  rcases mem_append.mp member with inRegistry | member
  · exact ⟨_, written_registryBlobs inRegistry⟩
  rcases mem_append.mp member with inFilters | member
  · obtain ⟨kind, written⟩ := written_filterBlobs inFilters
    exact ⟨_, written⟩
  split at member
  · next on =>
    rcases mem_append.mp member with inMembers | inFilters
    · exact written_memberBlobs on inMembers
    · obtain ⟨kind, written⟩ := written_filterBlobs inFilters
      exact ⟨_, written⟩
  · cases member

/-- The place of a blob of a snapshot says how it was written. -/
theorem written_of_slot (member : b ∈ snapshotToBlobs snap sequence opts)
    (placed : b.slot = some slot) : SnapshotBlob snap sequence opts slot b := by
  obtain ⟨other, written⟩ := written_of_mem member
  obtain rfl : other = slot := Option.some.inj (written.slot_eq.symm.trans placed)
  exact written

/-- The tables are among the blobs. -/
theorem mem_tableBlobs (member : b ∈ tableBlobs snap sequence) :
    b ∈ snapshotToBlobs snap sequence opts := by
  rw [snapshotToBlobs_eq_append, append_assoc, append_assoc]
  exact mem_append_left _ member

theorem mem_registryBlobs (member : b ∈ registryBlobs snap sequence opts.registry) :
    b ∈ snapshotToBlobs snap sequence opts := by
  rw [snapshotToBlobs_eq_append, append_assoc, append_assoc]
  exact mem_append_right _ (mem_append_left _ member)

theorem mem_memberBlobs (on : opts.memberIndex)
    (member : b ∈ memberBlobs snap sequence opts.members) :
    b ∈ snapshotToBlobs snap sequence opts := by
  rw [snapshotToBlobs_eq_append, if_pos on]
  exact mem_append_right _ (mem_append_left _ member)

/-- Without a blob in its place the index of the shared table has nothing to list. -/
theorem memberPairs_global_eq_nil (on : opts.memberIndex)
    (missing : lastBlob .sharedMembers (snapshotToBlobs snap sequence opts) = none) :
    memberPairs snap.global = [] := by
  by_contra filled
  obtain ⟨index, encoded⟩ := exists_encodeMembers filled opts.members .shared
  have written : SnapshotBlob snap sequence opts _ _ := .sharedMembers on encoded
  refine ne_of_lastBlob_eq_none missing (mem_memberBlobs on ?_) written.slot_eq
  rw [memberBlobs, encoded]
  exact mem_cons_self

theorem memberPairs_scope_eq_nil (on : opts.memberIndex) {scope : ScopeId}
    (listed : (scope, pairs) ∈ snap.scopes)
    (missing : lastBlob (.overlayMembers scope) (snapshotToBlobs snap sequence opts) = none) :
    memberPairs pairs = [] := by
  by_contra filled
  obtain ⟨index, encoded⟩ := exists_encodeMembers filled opts.members .overlay
  have written : SnapshotBlob snap sequence opts _ _ := .overlayMembers on listed encoded
  refine ne_of_lastBlob_eq_none missing (mem_memberBlobs on ?_) written.slot_eq
  refine mem_append_right _ (mem_filterMap.mpr ⟨_, listed, ?_⟩)
  rw [encoded, Option.map_some]

/-! ## Soundness -/

/-- Every filter of the file has fewer than 2³² blocks, so that its header can count
them. -/
def FewBlocks (blobs : List Blob) : Prop :=
  ∀ b ∈ blobs, ∀ kind, b.slot = some (.filter kind) → b.data.length < 8 + 2 ^ 32 * blockWords * 8

/-- A filter that is written is decoded as it was built, over the keys of its tables. -/
theorem SnapshotBlob.exists_decode {kind : FilterKind}
    (written : SnapshotBlob snap sequence opts (.filter kind) b)
    (few : b.data.length < 8 + 2 ^ 32 * blockWords * 8) :
    ∃ filter, BlockedFilter.decode b.data = .ok filter ∧ 0 < filter.blocks.length ∧
      ∀ key ∈ kind.keys snap opts.members, filter.Marks key := by
  cases written with
  | filter _ built =>
    rename_i filter
    unfold BlockedFilter.buildWith at built
    dsimp only at built
    split at built
    · cases built
    · cases built
      have wide := BlockedFilter.wide_build (kind.keys snap opts.members)
        (kind.hint snap opts.members) (clampFilterBits opts.filterBits)
      rw [data_blob, BlockedFilter.length_encode wide] at few
      refine ⟨_, BlockedFilter.decode_encode wide ?_,
        BlockedFilter.length_blocks_build_pos _ _ _,
        fun key member => BlockedFilter.marks_build member _ _⟩
      have eight : blockWords = 8 := rfl
      rw [eight] at few
      omega

variable (small : snap.Small)
  (short : ∀ b ∈ snapshotToBlobs snap sequence opts, b.data.length < 2 ^ 63)

include short in
theorem short_global : (encodePairs snap.global).length < 2 ^ 63 :=
  short (blob sequence globalBlobType (encodePairs snap.global) [])
    (mem_tableBlobs (mem_append_left _ mem_cons_self))

include short in
theorem short_scope {scope : ScopeId × List (NodeId × NodeId)} (listed : scope ∈ snap.scopes) :
    (encodePairs scope.2).length < 2 ^ 63 :=
  short (blob sequence scopeBlobType (encodePairs scope.2) (scopeProperties scope.1))
    (mem_tableBlobs (mem_append_right _ (mem_map_of_mem listed)))

include small short in
/-- The pairs in a table, and that its filter is built over their keys. -/
theorem exists_lists {kind : FilterKind} {scope : ScopeId}
    (written : SnapshotBlob snap sequence opts (kind.tableSlot scope) b) :
    ∃ pairs, kind.Lists b pairs ∧
      ∀ pair ∈ pairs, kind.key scope pair.1 ∈ kind.keys snap opts.members := by
  cases kind with
  | shared =>
    cases written with
    | shared =>
      refine ⟨_, tabulates_encodePairs rfl (short_global short) small.global, ?_⟩
      intro pair member
      exact mem_map_of_mem (f := fun pair : NodeId × NodeId => UInt64.ofNat pair.1)
        (mem_sortedPairs.mp member)
  | overlay =>
    cases written with
    | overlay listed =>
      refine ⟨_, tabulates_encodePairs rfl (short_scope short listed) (small.scopes _ listed).2, ?_⟩
      intro pair member
      exact mem_flatMap.mpr ⟨_, listed,
        mem_map.mpr ⟨pair, mem_sortedPairs.mp member, rfl⟩⟩
  | sharedMembers =>
    cases written with
    | sharedMembers on encoded =>
      refine ⟨_, indexes_encodeMembers encoded rfl rfl (short_global short), ?_⟩
      intro pair member
      have parent := (of_encodeMembers encoded).2 pair member
      refine mem_map.mpr ⟨pair.1, ?_, rfl⟩
      rw [sharedParents, encoded]
      exact parent
  | overlayMembers =>
    cases written with
    | overlayMembers on listed encoded =>
      refine ⟨_, indexes_encodeMembers encoded rfl rfl (short_scope short listed), ?_⟩
      intro pair member
      have parent := (of_encodeMembers encoded).2 pair member
      refine mem_flatMap.mpr ⟨(_, _), mem_filterMap.mpr ⟨_, listed, ?_⟩,
        mem_map.mpr ⟨pair.1, parent, rfl⟩⟩
      rw [encoded, Option.map_some]

include small short in
theorem sound_snapshotToBlobs (few : FewBlocks (snapshotToBlobs snap sequence opts)) :
    SoundBlobs (snapshotToBlobs snap sequence opts) where
  labelled := by
    rintro b member scope (isOverlay | isMembers)
    · cases written_of_slot member isOverlay with
      | overlay listed => exact ⟨rfl, (small.scopes _ listed).1⟩
    · cases written_of_slot member isMembers with
      | overlayMembers on listed encoded => exact ⟨rfl, (small.scopes _ listed).1⟩
  tables := by
    intro b member kind scope placed
    obtain ⟨pairs, lists, keyed⟩ := exists_lists small short (written_of_slot member placed)
    refine ⟨pairs, lists, fun filter filters pair inPairs => ?_⟩
    obtain ⟨b, inBlobs, isFilter, decoded⟩ := filters
    obtain ⟨built, again, -, marks⟩ :=
      (written_of_slot inBlobs isFilter).exists_decode (few b inBlobs kind isFilter)
    obtain rfl : filter = built := Except.ok.inj (decoded.symm.trans again)
    exact marks _ (keyed pair inPairs)
  registers := by
    intro b member placed
    cases written_of_slot member placed with
    | registry encoded => exact registers_encodeRegistry small encoded rfl rfl
  filters := by
    intro b member kind placed
    obtain ⟨filter, decoded, positive, -⟩ :=
      (written_of_slot member placed).exists_decode (few b member kind placed)
    exact ⟨filter, decoded, positive⟩
  fallback := by
    intro unregistered b member scope placed
    have unwritten : encodeRegistry (registryFromSnapshot snap) opts.registry = none := by
      cases encoded : encodeRegistry (registryFromSnapshot snap) opts.registry with
      | none => rfl
      | some written =>
        have inBlobs : blob sequence written.1 written.2 [] ∈
            registryBlobs snap sequence opts.registry := by
          rw [registryBlobs, encoded]
          exact mem_cons_self
        exact absurd (written_registryBlobs inBlobs).slot_eq
          (ne_of_lastBlob_eq_none unregistered (mem_registryBlobs inBlobs))
    cases written_of_slot member placed with
    | @overlay table listed =>
      have tabulates : (blob sequence scopeBlobType (encodePairs table.2)
          (scopeProperties table.1)).Tabulates (sortedPairs table.2) :=
        tabulates_encodePairs rfl (short_scope short listed) (small.scopes _ listed).2
      have none : sortedPairs table.2 = [] := by
        rw [empty_of_encodeRegistry unwritten _ listed]
        rfl
      rwa [none] at tabulates

/-- Where no filter is looked for, the filters do not matter. -/
theorem lastBlob_snapshotToBlobs (table : ∀ kind, slot ≠ .filter kind) :
    lastBlob slot (snapshotToBlobs snap sequence opts) =
      lastBlob slot (tableBlobs snap sequence ++ registryBlobs snap sequence opts.registry ++
        if opts.memberIndex then memberBlobs snap sequence opts.members else []) := by
  have filters : ∀ kinds, lastBlob slot (filterBlobs snap sequence opts kinds) = none := by
    refine fun kinds => lastBlob_eq_none fun b member placed => ?_
    obtain ⟨kind, written⟩ := written_filterBlobs member
    exact table kind (Option.some.inj (placed.symm.trans written.slot_eq))
  rw [snapshotToBlobs_eq_append, lastBlob_append, lastBlob_append, lastBlob_append slot _ (ite ..),
    filters, Option.none_or]
  split
  · rw [lastBlob_append, filters, Option.none_or]
  · rfl

theorem fewBlocks_unfiltered :
    FewBlocks (snapshotToBlobs snap sequence { opts with filterBits := 0 }) := by
  intro b member kind placed
  cases written_of_slot member placed with
  | filter _ built => cases built

end Layout

/-! ## With and without filters -/

/-- A filter may contain every key it was built over, whatever it was sized for, and also
when it was written and read in between; so a base that is opened from the file of a
snapshot answers every lookup as the base from the file that was written without
filters. -/
theorem filters_hide_no_key (codec : Puffin.FooterCodec) :
    (∀ (keys : List UInt64) (hint bitsPerKey : Nat), ∀ key ∈ keys,
      (BlockedFilter.build keys hint bitsPerKey).mayContain key = .ok true ∧
        ((BlockedFilter.build keys hint bitsPerKey).blocks.length < 2 ^ 32 →
          ∃ decoded, BlockedFilter.decode (BlockedFilter.build keys hint bitsPerKey).encode =
            .ok decoded ∧ decoded.mayContain key = .ok true)) ∧
    ∀ (snap : ForestSnapshot) (sequence : Nat) (opts : WriteOptions)
      (properties : List (String × String)) (file plain : List UInt8),
      snap.Small → FewBlocks (snapshotToBlobs snap sequence opts) →
      codec.Restores (Puffin.footer (snapshotToBlobs snap sequence opts) properties) →
      codec.Restores (Puffin.footer
        (snapshotToBlobs snap sequence { opts with filterBits := 0 }) properties) →
      Puffin.write codec (snapshotToBlobs snap sequence opts) properties = .ok file →
      Puffin.write codec (snapshotToBlobs snap sequence { opts with filterBits := 0 }) properties =
        .ok plain →
      file.length < 2 ^ 63 → plain.length < 2 ^ 63 →
        ∃ base bare, MappedBase.build codec file = .ok base ∧
          MappedBase.build codec plain = .ok bare ∧ base.Agrees bare := by
  constructor
  · intro keys hint bitsPerKey key member
    have contains := BlockedFilter.mayContain_of_marks
      (BlockedFilter.marks_build member hint bitsPerKey)
    exact ⟨contains, fun few => ⟨_, BlockedFilter.decode_encode
      (BlockedFilter.wide_build keys hint bitsPerKey) few, contains⟩⟩
  · intro snap sequence opts properties file plain small few restores plainRestores written
      plainWritten fits plainFits
    have sound := sound_snapshotToBlobs small
      (fun b member => (Puffin.length_data_le written member).trans_lt fits) few
    have plainSound := sound_snapshotToBlobs small
      (fun b member => (Puffin.length_data_le plainWritten member).trans_lt plainFits)
      fewBlocks_unfiltered
    obtain ⟨base, opened, loaded⟩ := MappedBase.exists_build sound restores written fits
    obtain ⟨bare, plainOpened, plainLoaded⟩ :=
      MappedBase.exists_build plainSound plainRestores plainWritten plainFits
    refine ⟨base, bare, opened, plainOpened,
      loaded.agrees sound plainLoaded plainSound fun kind scope => ?_⟩
    have table : ∀ other, kind.tableSlot scope ≠ .filter other := by
      cases kind <;> simp [FilterKind.tableSlot]
    rw [lastBlob_snapshotToBlobs table, lastBlob_snapshotToBlobs table]

/-- A shared pair and a pair in one scope, with the member index. -/
theorem filters_hide_no_key_two_pairs :
    let snap : ForestSnapshot := ⟨[(2, 1)], [(7, [(4, 3)])]⟩
    let opts : WriteOptions := ⟨8, .blocked, true, .blocked⟩
    let blobs := snapshotToBlobs snap 3 opts
    let plainBlobs := snapshotToBlobs snap 3 { opts with filterBits := 0 }
    let codec := Puffin.jsonCodec [Puffin.footer blobs [], Puffin.footer plainBlobs []]
    (BlockedFilter.build [2, 5] 0 3).mayContain 5 = .ok true ∧
    ∃ file plain base bare, Puffin.write codec blobs [] = .ok file ∧
      Puffin.write codec plainBlobs [] = .ok plain ∧
      MappedBase.build codec file = .ok base ∧ MappedBase.build codec plain = .ok bare ∧
      base.Agrees bare := by
  intro snap opts blobs plainBlobs codec
  obtain ⟨contained, opened⟩ := filters_hide_no_key codec
  have small : snap.Small := ⟨by decide, by decide⟩
  have lengths : (blobs.flatMap Blob.data).length < 2 ^ 32 ∧
      (plainBlobs.flatMap Blob.data).length < 2 ^ 32 ∧
      (Puffin.footer plainBlobs []).toJson.length < (Puffin.footer blobs []).toJson.length ∧
      (Puffin.footer blobs []).toJson.length < 2 ^ 32 := by
    unfold blobs plainBlobs
    rw [snapshotToBlobs_eq_append, snapshotToBlobs_eq_append]
    decide +kernel
  obtain ⟨body, plainBody, shorter, text⟩ := lengths
  have apart : (Puffin.footer plainBlobs []).toJson ≠ (Puffin.footer blobs []).toJson :=
    fun same => shorter.ne (congrArg List.length same)
  have restores : codec.Restores (Puffin.footer blobs []) :=
    Puffin.jsonCodec_restores (by simp) (by simp [apart])
  have plainRestores : codec.Restores (Puffin.footer plainBlobs []) :=
    Puffin.jsonCodec_restores (by simp) (by simp [apart.symm])
  obtain ⟨file, written, length⟩ := Puffin.exists_write_of_short codec [] body text
  obtain ⟨plain, plainWritten, plainLength⟩ :=
    Puffin.exists_write_of_short codec [] plainBody (shorter.trans text)
  obtain ⟨base, bare, agree⟩ := opened snap 3 opts [] file plain small
    (fun b member _ _ => (Puffin.length_data_le written member).trans_lt (length.trans (by decide)))
    restores plainRestores written plainWritten (by omega) (by omega)
  exact ⟨(contained [2, 5] 0 3 5 (by decide)).1, file, plain, base, bare, written, plainWritten,
    agree⟩

/-! ## What a file answers -/

/-- How a run is written with the options: with a member index in some encoding, or
without. -/
def WriteOptions.indexEncoding (opts : WriteOptions) : Option MemberEncoding :=
  if opts.memberIndex then some opts.members else none

open ScopedForest (fullBase fullBase_wellFormed)

section Tables

variable {last : Option Blob} {file : List UInt8}
  (ascending : (pairs.map Prod.fst).Pairwise (· < ·))

include ascending

theorem sortedPairs_eq : sortedPairs pairs = pairs :=
  ((pairwise_map.mp ascending).imp le_of_lt).insertionSort_eq

/-- A table that was opened from the blob of ascending pairs finds what they list. -/
theorem lookupIn_eq {table : Option MappedPairTable}
    (opened : Option.Rel (fun b part => Part.Opens sparseIndexOf file b part) last
      (table.map .pairs))
    (lists : ∀ b ∈ last, b.Tabulates (sortedPairs pairs)) (unwritten : last = none → pairs = [])
    (node : NodeId) : MappedBase.lookupIn table file node = .ok (pairs.lookup node) := by
  cases table with
  | none =>
    cases opened
    rw [unwritten rfl]
    rfl
  | some t =>
    cases opened with
    | some opens =>
      obtain ⟨stores, indexed⟩ := opens pairs (sortedPairs_eq ascending ▸ lists _ rfl)
      exact stores.lookup_eq ascending (indexed ▸ sparseIndexOf_samples pairs) node

/-- The index of ascending pairs of machine numbers has just these pairs, by parent. -/
theorem memberPairs_eq (ids : SmallIds pairs) (short : (encodePairs pairs).length < 2 ^ 63) :
    memberPairs pairs = (invertPairs pairs).map ofLex := by
  have keys : tableKeys (encodePairs pairs) = pairs := by
    rw [encodePairs, ← sortedPairs, sortedPairs_eq ascending,
      tableKeys_table (length_lt_of_encodePairs short)]
    exact (map_congr_left fun pair member => Prod.ext (Nat.mod_eq_of_lt (ids pair member).1)
      (Nat.mod_eq_of_lt (ids pair member).2)).trans (map_id _)
  rw [memberPairs, keys]

/-- A member index that was opened hands out the children in its table, and is missing
only if it was not asked for or the table has no children. -/
theorem childrenIn_eq_memberTable {table : Option MemberTable} {opts : WriteOptions}
    (opened : Option.Rel (fun b part => Part.Opens sparseIndexOf file b part) last
      (table.map .members))
    (ids : SmallIds pairs) (short : (encodePairs pairs).length < 2 ^ 63)
    (lists : ∀ b ∈ last, opts.memberIndex ∧ b.Indexes (memberPairs pairs))
    (unwritten : last = none → opts.memberIndex → memberPairs pairs = [])
    (parent : NodeId) (limit : Nat) (out : List NodeId) :
    MappedBase.childrenIn table file parent limit out = .ok (out ++
      ((opts.indexEncoding.bind fun _ => memberTable pairs).map
        fun members => (childrenIn members parent).take limit).getD []) := by
  have children : ((memberPairs pairs).filter fun pair => pair.1 = parent).map Prod.snd =
      tableChildren pairs parent := by
    rw [memberPairs_eq ascending ids short, filter_map, map_map]
    rfl
  rw [MappedBase.childrenIn_eq opened fun b member => (lists b member).2, children,
    WriteOptions.indexEncoding]
  cases on : opts.memberIndex with
  | false =>
    cases last with
    | none => rfl
    | some b => cases on.symm.trans (lists b rfl).1
  | true =>
    rw [if_pos rfl, Option.bind_some, take_memberTable]
    cases last with
    | none =>
      rw [← children, unwritten rfl on]
      simp
    | some b => rfl

end Tables

/-- A snapshot lists the tables of a base, and of the scopes those with pairs. -/
structure ForestSnapshot.Lists (snap : ForestSnapshot) (tables : PuffinBase) : Prop where
  global : snap.global = tables.shared
  scopes : ∀ s pairs, (s, pairs) ∈ snap.scopes ↔ pairs = tables.overlay s ∧ pairs ≠ []

section Reading

variable {snap : ForestSnapshot} {tables : PuffinBase} {base : MappedBase} {file : List UInt8}
  {sequence : Nat} {opts : WriteOptions}
  (lists : snap.Lists tables) (wellFormed : tables.WellFormed) (small : snap.Small)
  (short : ∀ b ∈ snapshotToBlobs snap sequence opts, b.data.length < 2 ^ 63)
  (sound : SoundBlobs (snapshotToBlobs snap sequence opts))
  (loaded : base.Loaded sparseIndexOf file (snapshotToBlobs snap sequence opts))

include lists in
theorem ForestSnapshot.Lists.mem_scopes {scope : ScopeId} (filled : tables.overlay scope ≠ []) :
    (scope, tables.overlay scope) ∈ snap.scopes :=
  (lists.scopes _ _).mpr ⟨rfl, filled⟩

include lists wellFormed small short sound loaded

/-- A base that was loaded from the blobs of a snapshot finds the parents in its tables. -/
theorem sharedParent_eq_tables (node : NodeId) :
    base.sharedParent node = .ok (tables.sharedParent node) := by
  rw [loaded.sharedParent_eq sound]
  refine lookupIn_eq wellFormed.shared.ascending (loaded.parts .shared) (fun b last => ?_)
    (fun missing => ?_) node
  · obtain ⟨member, placed⟩ := mem_of_lastBlob last
    cases written_of_slot member placed with
    | shared => exact lists.global ▸ tabulates_encodePairs rfl (short_global short) small.global
  · exact absurd rfl (ne_of_lastBlob_eq_none missing
      (mem_tableBlobs (mem_append_left _ mem_cons_self)))

theorem overlayParent_eq_tables (scope : ScopeId) (node : NodeId) :
    base.overlayParent scope node = .ok (tables.overlayParent scope node) := by
  rw [loaded.overlayParent_eq sound]
  refine lookupIn_eq (wellFormed.overlays scope).ascending (loaded.parts (.overlay scope))
    (fun b last => ?_) (fun missing => ?_) node
  · obtain ⟨member, placed⟩ := mem_of_lastBlob last
    cases written_of_slot member placed with
    | @overlay table listed =>
      rw [← ((lists.scopes _ _).mp listed).1]
      exact tabulates_encodePairs rfl (short_scope short listed) (small.scopes _ listed).2
  · by_contra filled
    have listed := lists.mem_scopes filled
    have written : SnapshotBlob _ sequence opts _ _ := .overlay listed
    exact ne_of_lastBlob_eq_none missing
      (mem_tableBlobs (mem_append_right _ (mem_map_of_mem listed))) written.slot_eq

/-- Its member index hands out the children that the tables have. -/
theorem sharedChildren_eq_tables (parent : NodeId) (limit : Nat) (out : List NodeId) :
    base.sharedChildren parent limit out =
      .ok (out ++ tables.sharedChildren opts.indexEncoding parent limit) := by
  have global := lists.global
  rw [loaded.sharedChildren_eq sound]
  refine childrenIn_eq_memberTable wellFormed.shared.ascending (loaded.parts .sharedMembers)
    (global ▸ small.global) (global ▸ short_global short) (fun b last => ?_)
    (fun missing on => global ▸ memberPairs_global_eq_nil on missing) parent limit out
  obtain ⟨member, placed⟩ := mem_of_lastBlob last
  cases written_of_slot member placed with
  | sharedMembers on encoded =>
    exact ⟨on, global ▸ indexes_encodeMembers encoded rfl rfl (short_global short)⟩

theorem overlayChildren_eq_tables (scope : ScopeId) (parent : NodeId) (limit : Nat)
    (out : List NodeId) :
    base.overlayChildren scope parent limit out =
      .ok (out ++ tables.overlayChildren opts.indexEncoding scope parent limit) := by
  rw [loaded.overlayChildren_eq sound]
  have ascending := (wellFormed.overlays scope).ascending
  have ids : SmallIds (tables.overlay scope) := fun pair member =>
    (small.scopes _ (lists.mem_scopes (ne_nil_of_mem member))).2 pair member
  have fits : (encodePairs (tables.overlay scope)).length < 2 ^ 63 := by
    by_cases filled : tables.overlay scope = []
    · rw [filled, length_encodePairs]
      decide
    · have short := short_scope short (lists.mem_scopes filled)
      exact short
  refine childrenIn_eq_memberTable ascending (loaded.parts (.overlayMembers scope)) ids fits
    (fun b last => ?_) (fun missing on => ?_) parent limit out
  · obtain ⟨member, placed⟩ := mem_of_lastBlob last
    cases written_of_slot member placed with
    | @overlayMembers on table listed written encoded =>
      rw [← ((lists.scopes _ _).mp listed).1]
      exact ⟨on, indexes_encodeMembers encoded rfl rfl (short_scope short listed)⟩
  · by_cases filled : tables.overlay scope = []
    · rw [memberPairs_eq ascending ids fits, filled]
      rfl
    · exact memberPairs_scope_eq_nil on (lists.mem_scopes filled) missing

end Reading

/-- A snapshot of a forest has the tables of the base that the forest streams out. -/
theorem lists_snapshot {f : ScopedForest LayeredBase} (wellFormed : f.tier.WellFormed) :
    f.snapshot.2.Lists (fullBase f.tier) := by
  have collected := foldl_receive_collector f.tier.compactLocked.2 BlobWriter.new
  have calls := (Tier.compactLocked_spec wellFormed).2
  nth_rewrite 2 3 [calls] at collected
  rw [writer_eq] at collected
  unfold fullBase
  constructor
  · rw [writtenBase_shared]
    exact congrArg SnapshotCollector.global collected
  · intro s pairs
    have scopes : f.snapshot.2.scopes = _ := congrArg SnapshotCollector.scopes collected
    rw [scopes, mem_scopeBlobs, writtenBase_overlay]
    split <;> simp [*]

/-- A forest of machine numbers is written the same by way of a snapshot. -/
theorem compactToBlobs_eq_of_small {f : ScopedForest LayeredBase} (wellFormed : f.tier.WellFormed)
    (small : f.snapshot.2.Small) (sequence : Nat) (opts : WriteOptions) :
    compactToBlobs f sequence opts = snapshotToBlobs f.snapshot.2 sequence opts := by
  have lists := lists_snapshot wellFormed
  apply compactToBlobs_eq wellFormed
  · rw [← writtenBase_shared]
    apply (fullBase_wellFormed wellFormed).shared.length_lt (by decide)
    exact lists.global ▸ fun pair member => (small.global pair member).1
  · intro s listed
    refine (resolved_overlayTable wellFormed listed).length_lt (by decide) fun pair member => ?_
    have inScopes := (lists.scopes s _).mpr ⟨?_, ne_nil_of_mem member⟩
    · exact ((small.scopes _ inScopes).2 pair member).1
    · rw [fullBase, writtenBase_overlay, if_pos listed]

/-- The file that a forest with a past streams out is opened again, and every parent and
every child found in it is the one in the tables of the forest, whatever filters and
indexes stand in between. -/
theorem file_refines_base {events : List EdgeEvent} {d : DiskForest} (lineage : Lineage events d)
    {codec : Puffin.FooterCodec} {sequence : Nat} {opts : WriteOptions}
    {properties : List (String × String)} {file : List UInt8}
    (small : d.forest.snapshot.2.Small)
    (few : FewBlocks (compactToBlobs d.forest sequence opts))
    (restores : codec.Restores (Puffin.footer (compactToBlobs d.forest sequence opts) properties))
    (written : Puffin.write codec (compactToBlobs d.forest sequence opts) properties = .ok file)
    (fits : file.length < 2 ^ 63) :
    ∃ base, MappedBase.build codec file = .ok base ∧
      (∀ node, base.sharedParent node =
        .ok ((writeBase d.forest.compactInto.2).sharedParent node)) ∧
      (∀ scope node, base.overlayParent scope node =
        .ok ((writeBase d.forest.compactInto.2).overlayParent scope node)) ∧
      (∀ parent limit out, base.sharedChildren parent limit out = .ok (out ++
        (writeBase d.forest.compactInto.2).sharedChildren opts.indexEncoding parent limit)) ∧
      ∀ scope parent limit out, base.overlayChildren scope parent limit out = .ok (out ++
        (writeBase d.forest.compactInto.2).overlayChildren opts.indexEncoding scope parent
          limit) := by
  have wellFormed := lineage.settled.onDisk.represents.wellFormed
  have full : writeBase d.forest.compactInto.2 = fullBase d.forest.tier :=
    congrArg writeBase (Tier.compactLocked_spec wellFormed).2
  have fullOk := fullBase_wellFormed wellFormed
  have lists := lists_snapshot wellFormed
  rw [compactToBlobs_eq_of_small wellFormed small sequence opts] at few restores written
  have short : ∀ b ∈ snapshotToBlobs d.forest.snapshot.2 sequence opts, b.data.length < 2 ^ 63 :=
    fun b member => (Puffin.length_data_le written member).trans_lt fits
  have sound := sound_snapshotToBlobs small short few
  obtain ⟨base, opened, loaded⟩ := MappedBase.exists_build sound restores written fits
  rw [full]
  exact ⟨base, opened, sharedParent_eq_tables lists fullOk small short sound loaded,
    overlayParent_eq_tables lists fullOk small short sound loaded,
    sharedChildren_eq_tables lists fullOk small short sound loaded,
    overlayChildren_eq_tables lists fullOk small short sound loaded⟩

/-- The file of two folds, with the four filters: node 4 is below node 1 in scope 7. -/
theorem file_refines_base_foldedTwice :
    let blobs := compactToBlobs foldedTwice.forest 3 ⟨8, .blocked, true, .blocked⟩
    let codec := Puffin.jsonCodec [Puffin.footer blobs []]
    (∀ kind : FilterKind, kind.blobType ∈ blobs.map Blob.blobType) ∧
    ∃ file base, Puffin.write codec blobs [] = .ok file ∧
      MappedBase.build codec file = .ok base ∧ base.sharedParent 2 = .ok (some 1) ∧
      base.sharedParent 4 = .ok none ∧ base.overlayParent 7 4 = .ok (some 1) ∧
      base.sharedChildren 1 5 [] = .ok [2] ∧ base.overlayChildren 7 1 5 [] = .ok [2, 4] := by
  intro blobs codec
  have small : foldedTwice.forest.snapshot.2.Small := ⟨by decide +kernel, by decide +kernel⟩
  have shape : (blobs.flatMap Blob.data).length < 2 ^ 32 ∧
      (Puffin.footer blobs []).toJson.length < 2 ^ 32 ∧
      ∀ kind ∈ [FilterKind.shared, .overlay, .sharedMembers, .overlayMembers],
        kind.blobType ∈ blobs.map Blob.blobType := by
    unfold blobs
    rw [compactToBlobs_eq_of_small lineage_foldedTwice.settled.onDisk.represents.wellFormed small,
      snapshotToBlobs_eq_append]
    decide +kernel
  obtain ⟨body, text, filters⟩ := shape
  obtain ⟨file, written, length⟩ := Puffin.exists_write_of_short codec [] body text
  obtain ⟨base, opened, shared, overlay, sharedChildren, overlayChildren⟩ :=
    file_refines_base lineage_foldedTwice small
      (fun b member _ _ => (Puffin.length_data_le written member).trans_lt
        (length.trans (by decide)))
      (Puffin.jsonCodec_restores mem_cons_self (by simp)) written (by omega)
  have tables : (writeBase foldedTwice.forest.compactInto.2).sharedParent 2 = some 1 ∧
      (writeBase foldedTwice.forest.compactInto.2).sharedParent 4 = none ∧
      (writeBase foldedTwice.forest.compactInto.2).overlayParent 7 4 = some 1 ∧
      (writeBase foldedTwice.forest.compactInto.2).sharedChildren (some .blocked) 1 5 = [2] ∧
      (writeBase foldedTwice.forest.compactInto.2).overlayChildren (some .blocked) 7 1 5 =
        [2, 4] := by
    decide +kernel
  refine ⟨fun kind => filters kind (by cases kind <;> simp), file, base, written, opened,
    tables.1 ▸ shared 2, tables.2.1 ▸ shared 4, tables.2.2.1 ▸ overlay 7 4,
    tables.2.2.2.1 ▸ sharedChildren 1 5 [], tables.2.2.2.2 ▸ overlayChildren 7 1 5 []⟩

end Blaze
