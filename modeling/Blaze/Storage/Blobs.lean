import Blaze.Storage.Filter
import Blaze.Storage.LayerRegistry
import Blaze.Storage.Members
import Std.Data.String.ToNat

/-!
# The blobs of a routing file

What the two compactors hand to the file writer, byte for byte: the tables, the
registry, the filters and the member index, each as a blob.  Filters and member
index are made from the encoded tables.
-/

namespace Blaze

open Bytes LayeredBase

/-- How a file is encoded. -/
structure WriteOptions where
  filterBits : Nat := defaultFilterBits
  registry : RegistryEncoding := .blocked
  memberIndex : Bool := false
  members : MemberEncoding := .blocked
  deriving DecidableEq, Repr

/-- One blob of a Puffin file. -/
structure Blob where
  blobType : String
  data : List UInt8
  properties : List (String × String)
  snapshotId : Int64
  sequenceNumber : Int64
  deriving DecidableEq

def globalBlobType : String := "blaze-global-dsu-v1"
def scopeBlobType : String := "blaze-scope-dsu-v1"
def scopeIdProp : String := "scope-id"
def sharedFilterBlobType : String := "blaze-shared-filter-v1"
def overlayFilterBlobType : String := "blaze-overlay-filter-v1"
def sharedMembersFilterBlobType : String := "blaze-shared-members-filter-v1"
def overlayMembersFilterBlobType : String := "blaze-overlay-members-filter-v1"

/-- A blob stamped with the sequence it is written for. -/
def blob (sequence : Nat) (blobType : String) (data : List UInt8)
    (properties : List (String × String)) : Blob :=
  ⟨blobType, data, properties, Int64.ofNat sequence, Int64.ofNat sequence⟩

/-- The properties of a blob that describes one scope. -/
def scopeProperties (scope : ScopeId) : List (String × String) :=
  [(scopeIdProp, Nat.repr scope)]

/-- The scope a blob carries in its properties. -/
def scopeOf (b : Blob) : ScopeId :=
  ((b.properties.lookup scopeIdProp).bind String.toNat?).getD 0

/-! ## Tables -/

/-- The number of pairs as the 64-bit counter of a writer has it. -/
def pairCount (pairs : List (NodeId × NodeId)) : Nat :=
  pairs.length % 2 ^ 64

/-- A pair count, then the pairs with a fixed stride. -/
def table (pairs : List (NodeId × NodeId)) : List UInt8 :=
  putLe 8 (pairCount pairs) ++ pairs.flatMap fun pair => putLe 8 pair.1 ++ putLe 8 pair.2

/-- Walk the pairs of an encoded table. -/
def tableKeys (data : List UInt8) : List (NodeId × NodeId) :=
  let count := if data.length ≥ 8 then getLe 8 data 0 else 0
  (List.range count).map fun i =>
    let start := 8 + i * 16
    (getLe 8 data start, getLe 8 data (start + 8))

theorem length_tableKeys_table (pairs : List (NodeId × NodeId)) :
    (tableKeys (table pairs)).length = pairCount pairs := by
  have long : (table pairs).length ≥ 8 := by simp [table]
  have count : getLe 8 (table pairs) 0 = pairCount pairs := by
    rw [table, getLe_putLe_append]
    exact Nat.mod_eq_of_lt (Nat.mod_lt _ (by decide))
  rw [tableKeys, if_pos long, count, List.length_map, List.length_range]

/-! ## Registry, filters and member index -/

/-- Encode ascending entries without repeats; nothing when there are none. -/
def encodeRegistry (entries : List RegistryEntry) (encoding : RegistryEncoding) :
    Option (String × List UInt8) :=
  (entries.foldl (fun w entry => w.push (ofLex entry).1 (ofLex entry).2)
    (RegistryWriter.new encoding)).finish

/-- The pairs of a table by parent, without self-edges. -/
def invertPairs (pairs : List (NodeId × NodeId)) : List (NodeId ×ₗ NodeId) :=
  ((pairs.filter fun pair => pair.1 ≠ pair.2).map fun pair =>
    (toLex (pair.2, pair.1) : NodeId ×ₗ NodeId)).insertionSort (· ≤ ·)

/-- Invert an encoded table: the blob type, the payload, and the distinct parents
that the filters are made from. -/
def encodeMembers (data : List UInt8) (encoding : MemberEncoding) (tier : MemberTier) :
    Option (String × List UInt8 × List NodeId) :=
  let pairs := invertPairs (tableKeys data)
  let parents := pairs.foldl
    (fun parents pair =>
      if parents.getLast? ≠ some (ofLex pair).1 then parents ++ [(ofLex pair).1] else parents) []
  (pairs.foldl (fun w pair => w.push (ofLex pair).1 (ofLex pair).2)
    (MemberWriter.new encoding tier)).finish.map fun written => (written.1, written.2, parents)

/-- The filters of the member index, over the distinct parents of each table. -/
def memberFilters (sharedParents : List NodeId)
    (overlayParents : List (ScopeId × List NodeId)) (bits : Nat) :
    List (String × BlockedFilter) :=
  let overlayKeys := overlayParents.foldl (fun keys scope => keys + scope.2.length) 0
  [(sharedMembersFilterBlobType,
      BlockedFilter.buildWith (sharedParents.map UInt64.ofNat) sharedParents.length bits),
    (overlayMembersFilterBlobType,
      BlockedFilter.buildWith (overlayParents.flatMap fun scope =>
        scope.2.map fun key => overlayKey scope.1 (UInt64.ofNat key)) overlayKeys bits)].filterMap
    fun filter => filter.2.map fun built => (filter.1, built)

/-- What is collected while the member index of each table is written: the blobs,
the parents of the shared table, and those of each overlay. -/
structure MemberBlobs where
  blobs : List Blob
  sharedParents : List NodeId
  overlayParents : List (ScopeId × List NodeId)

namespace BlobWriter

/-- The member blob of one table, if it has pairs. -/
def indexTable (sequence : Nat) (opts : WriteOptions) (out : MemberBlobs)
    (source : MemberTier × ScopeId × List UInt8) : MemberBlobs :=
  match encodeMembers source.2.2 opts.members source.1 with
  | none => out
  | some (blobType, payload, parents) =>
      match source.1 with
      | .shared =>
          { out with
            sharedParents := parents
            blobs := out.blobs ++ [blob sequence blobType payload []] }
      | .overlay =>
          { out with
            overlayParents := out.overlayParents ++ [(source.2.1, parents)]
            blobs := out.blobs ++ [blob sequence blobType payload (scopeProperties source.2.1)] }

/-- The table a blob holds, with its tier and scope; none for other blobs. -/
def memberSource (b : Blob) : Option (MemberTier × ScopeId × List UInt8) :=
  if b.blobType = globalBlobType then some (.shared, 0, b.data)
  else if b.blobType = scopeBlobType then some (.overlay, scopeOf b, b.data)
  else none

/-- The blobs of a finished stream: the shared table, the scopes, the registry,
the filters, and the member index when it is asked for. -/
def finishBlobs (w : BlobWriter) (sequence : Nat) (opts : WriteOptions) : List Blob :=
  let shared := table w.shared
  let sharedFilter := BlockedFilter.buildWith
    ((tableKeys shared).map fun pair => UInt64.ofNat pair.1) (pairCount w.shared) opts.filterBits
  let scopeBlobs := w.scopeBlobs.map fun scope =>
    blob sequence scopeBlobType (table scope.2) (scopeProperties scope.1)
  let overlayKeys := scopeBlobs.foldl (fun keys b => keys + (tableKeys b.data).length) 0
  let overlayFilter := BlockedFilter.buildWith
    (scopeBlobs.flatMap fun b =>
      (tableKeys b.data).map fun pair => overlayKey (scopeOf b) (UInt64.ofNat pair.1))
    overlayKeys opts.filterBits
  let registry := encodeRegistry (SortDedup.sortDedup w.registry) opts.registry
  let blobs := [blob sequence globalBlobType shared []] ++ scopeBlobs ++
    (registry.map fun written => blob sequence written.1 written.2 []).toList ++
    (sharedFilter.map fun f => blob sequence sharedFilterBlobType f.encode []).toList ++
    (overlayFilter.map fun f => blob sequence overlayFilterBlobType f.encode []).toList
  if opts.memberIndex then
    let indexed := (blobs.filterMap memberSource).foldl (indexTable sequence opts) ⟨blobs, [], []⟩
    indexed.blobs ++
      (memberFilters indexed.sharedParents indexed.overlayParents opts.filterBits).map
        fun filter => blob sequence filter.1 filter.2.encode []
  else
    blobs

end BlobWriter

/-- Compact a forest into blobs. -/
def compactToBlobs (f : ScopedForest LayeredBase) (sequence : Nat) (opts : WriteOptions) :
    List Blob :=
  (f.compactInto.2.foldl BlobWriter.receive BlobWriter.new).finishBlobs sequence opts

/-! ## Storage-side compaction -/

/-- What a compaction reports. -/
structure CompactionStats where
  sharedPairs : Nat
  overlayPairs : Nat
  scopes : Nat
  registryEntries : Nat
  registryCorrections : Nat
  movedRoots : Nat
  deriving DecidableEq, Repr

/-- What one registry merge produced. -/
structure MergedRegistry where
  blob : Option (String × List UInt8)
  entries : Nat
  corrections : Nat
  movedRoots : Nat

/-- Merge the registry runs of the layers into one blob. -/
def mergeRegistry (layers : LayeredBase) (encoding : RegistryEncoding) : MergedRegistry :=
  let inOrder := (registryEntries layers).filter fun entry =>
    (ofLex entry).1 ∉ movedRoots layers
  let written := SortDedup.dedup (weave (corrections layers) inOrder)
  let writer := written.foldl (fun w entry => RegistryWriter.push w (ofLex entry).1 (ofLex entry).2)
    (RegistryWriter.new encoding)
  ⟨writer.finish, writer.entries, (corrections layers).length,
    (SortDedup.sortDedup (movedRoots layers)).length⟩

/-- Start the member index of a merged file with that of its shared table. -/
def indexShared (sequence : Nat) (opts : WriteOptions) (payload : List UInt8) : MemberBlobs :=
  match encodeMembers payload opts.members .shared with
  | none => ⟨[], [], []⟩
  | some (blobType, data, parents) => ⟨[blob sequence blobType data []], parents, []⟩

/-- Continue it with one overlay. -/
def indexOverlay (sequence : Nat) (opts : WriteOptions) (out : MemberBlobs) (scope : ScopeId)
    (payload : List UInt8) : MemberBlobs :=
  match encodeMembers payload opts.members .overlay with
  | none => out
  | some (blobType, data, parents) =>
      { out with
        overlayParents := out.overlayParents ++ [(scope, parents)]
        blobs := out.blobs ++ [blob sequence blobType data (scopeProperties scope)] }

/-- Merge a stack of layers into the blobs of one file. -/
def compactLayersBlobs (layers : LayeredBase) (sequence : Nat) (opts : WriteOptions) :
    List Blob × CompactionStats :=
  let sharedPairs := layers.sharedPairs
  let sharedPayload := table sharedPairs
  let overlayPayloads := (mergeOverlays layers).map fun scope =>
    (scope.1, table scope.2, pairCount scope.2)
  let overlayPairs := overlayPayloads.foldl (fun pairs scope => pairs + scope.2.2) 0
  let registry := mergeRegistry layers opts.registry
  let sharedFilter := BlockedFilter.buildWith
    ((tableKeys sharedPayload).map fun pair => UInt64.ofNat pair.1) (pairCount sharedPairs)
    opts.filterBits
  let overlayFilter := BlockedFilter.buildWith
    (overlayPayloads.flatMap fun scope =>
      (tableKeys scope.2.1).map fun pair => overlayKey scope.1 (UInt64.ofNat pair.1))
    overlayPairs opts.filterBits
  let blobs := [blob sequence globalBlobType sharedPayload []] ++
    (overlayPayloads.map fun scope =>
      blob sequence scopeBlobType scope.2.1 (scopeProperties scope.1)) ++
    (registry.blob.map fun written => blob sequence written.1 written.2 []).toList ++
    (sharedFilter.map fun f => blob sequence sharedFilterBlobType f.encode []).toList ++
    (overlayFilter.map fun f => blob sequence overlayFilterBlobType f.encode []).toList
  let members :=
    if opts.memberIndex then
      let indexed := overlayPayloads.foldl (fun out scope =>
        indexOverlay sequence opts out scope.1 scope.2.1) (indexShared sequence opts sharedPayload)
      indexed.blobs ++
        (memberFilters indexed.sharedParents indexed.overlayParents opts.filterBits).map
          fun filter => blob sequence filter.1 filter.2.encode []
    else
      []
  (blobs ++ members,
    ⟨pairCount sharedPairs, overlayPairs, (mergeOverlays layers).length, registry.entries,
      registry.corrections, registry.movedRoots⟩)

end Blaze
