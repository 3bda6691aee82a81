import Blaze.Storage.BuildIndexes
import Blaze.Storage.MemberRoundTrip
import Blaze.Storage.Puffin
import Blaze.Storage.RegistryRoundTrip

/-!
# A routing base served from a mapped file

Opening a base parses the index of a Puffin file, the headers of its tables and its
filters, and builds the sparse indexes; a lookup then probes a filter and searches a
table in the mapping.
-/

namespace Blaze

open Bytes

/-! ## Kinds of blobs -/

/-- The four tables that have a filter. -/
inductive FilterKind where
  | shared
  | overlay
  | sharedMembers
  | overlayMembers
  deriving DecidableEq, Repr

/-- What a blob is by its type. -/
inductive BlobKind where
  | shared
  | overlay
  | registry
  | sharedMembers
  | overlayMembers
  | filter (kind : FilterKind)
  deriving DecidableEq, Repr

/-- Blobs of an unknown type are nothing. -/
def blobKind (blobType : String) : Option BlobKind :=
  if blobType = globalBlobType then
    some .shared
  else if blobType = scopeBlobType then
    some .overlay
  else if blobType = registryFlatBlobType ∨ blobType = registryBlockedBlobType then
    some .registry
  else if blobType = sharedFlatBlobType ∨ blobType = sharedBlockedBlobType then
    some .sharedMembers
  else if blobType = overlayFlatBlobType ∨ blobType = overlayBlockedBlobType then
    some .overlayMembers
  else if blobType = sharedFilterBlobType then
    some (.filter .shared)
  else if blobType = overlayFilterBlobType then
    some (.filter .overlay)
  else if blobType = sharedMembersFilterBlobType then
    some (.filter .sharedMembers)
  else if blobType = overlayMembersFilterBlobType then
    some (.filter .overlayMembers)
  else
    none

/-- Read decimal digits into a 32-bit number. -/
def parseDigits : List Char → Nat → Except Fault Nat
  | [], n => .ok n
  | c :: cs, n =>
      if c.isDigit then
        let n := 10 * n + (c.toNat - '0'.toNat)
        if n < 2 ^ 32 then
          parseDigits cs n
        else
          .error (.refused "number too large to fit in target type")
      else
        .error (.refused "invalid digit found in string")

/-- Parse a scope as the standard library parses a 32-bit number. -/
def parseScope (text : String) : Except Fault ScopeId :=
  match text.toList with
  | [] => .error (.refused "cannot parse integer from empty string")
  | '+' :: c :: cs => parseDigits (c :: cs) 0
  | digits => parseDigits digits 0

/-- The scope in the properties of a blob. -/
def blobScope (name : String) (properties : List (String × String)) : Except Fault ScopeId :=
  match properties.lookup scopeIdProp with
  | none => .error (.refused s!"{name} missing {scopeIdProp}")
  | some text => parseScope text

/-! ## The base -/

/-- A base served from a mapping: its tables and filters. -/
structure MappedBase where
  file : List UInt8
  shared : Option MappedPairTable
  overlays : Std.TreeMap ScopeId MappedPairTable
  sharedMembers : Option MemberTable
  overlayMembers : Std.TreeMap ScopeId MemberTable
  registry : Option RegistryTable
  fallbackRegistry : Option (Std.TreeMap NodeId (List ScopeId))
  sharedFilter : Option BlockedFilter
  overlayFilter : Option BlockedFilter
  sharedMembersFilter : Option BlockedFilter
  overlayMembersFilter : Option BlockedFilter
  sequence : Nat

namespace MappedBase

def empty (file : List UInt8) : MappedBase where
  file := file
  shared := none
  overlays := ∅
  sharedMembers := none
  overlayMembers := ∅
  registry := none
  fallbackRegistry := none
  sharedFilter := none
  overlayFilter := none
  sharedMembersFilter := none
  overlayMembersFilter := none
  sequence := 0

/-! ## Lookups -/

/-- Ask a filter first, if there is one: its negative answer is definitive. -/
def guarded {α : Type} (filter : Option BlockedFilter) (key : UInt64) (missing : α)
    (search : Except Fault α) : Except Fault α :=
  match filter with
  | none => search
  | some filter => do if ← filter.mayContain key then search else .ok missing

def sharedParent (base : MappedBase) (node : NodeId) : Except Fault (Option NodeId) :=
  guarded base.sharedFilter (UInt64.ofNat node) none
    (match base.shared with
    | none => .ok none
    | some t => t.lookup base.file node)

def overlayParent (base : MappedBase) (scope : ScopeId) (node : NodeId) :
    Except Fault (Option NodeId) :=
  guarded base.overlayFilter (overlayKey scope (UInt64.ofNat node)) none
    (match base.overlays[scope]? with
    | none => .ok none
    | some t => t.lookup base.file node)

/-- Nodes whose recorded shared parent is `parent`, appended to `out`. -/
def sharedChildren (base : MappedBase) (parent : NodeId) (limit : Nat) (out : List NodeId) :
    Except Fault (List NodeId) :=
  guarded base.sharedMembersFilter (UInt64.ofNat parent) out
    (match base.sharedMembers with
    | none => .ok out
    | some t => t.childrenOf base.file parent limit out)

/-- Same within the overlay of a scope. -/
def overlayChildren (base : MappedBase) (scope : ScopeId) (parent : NodeId) (limit : Nat)
    (out : List NodeId) : Except Fault (List NodeId) :=
  guarded base.overlayMembersFilter (overlayKey scope (UInt64.ofNat parent)) out
    (match base.overlayMembers[scope]? with
    | none => .ok out
    | some t => t.childrenOf base.file parent limit out)

/-! ## Opening -/

def setFilter (base : MappedBase) (filter : BlockedFilter) : FilterKind → MappedBase
  | .shared => { base with sharedFilter := some filter }
  | .overlay => { base with overlayFilter := some filter }
  | .sharedMembers => { base with sharedMembersFilter := some filter }
  | .overlayMembers => { base with overlayMembersFilter := some filter }

/-- Load one blob by its kind, from its place in the file. -/
def loadKind (base : MappedBase) (blob : Puffin.BlobIndex) (start stop : Nat) :
    BlobKind → Except Fault MappedBase
  | .shared => do
      let table ← MappedPairTable.parse base.file start stop
      .ok { base with shared := some table }
  | .overlay => do
      let scope ← blobScope "scope blob" blob.properties
      let table ← MappedPairTable.parse base.file start stop
      .ok { base with overlays := base.overlays.insert scope table }
  | .registry => do
      let registry ← RegistryTable.parse blob.blobType base.file start stop
      .ok { base with registry }
  | .sharedMembers => do
      let sharedMembers ← MemberTable.parse blob.blobType base.file start stop
      .ok { base with sharedMembers }
  | .overlayMembers => do
      let scope ← blobScope "overlay member blob" blob.properties
      match ← MemberTable.parse blob.blobType base.file start stop with
      | none => .ok base
      | some table => .ok { base with overlayMembers := base.overlayMembers.insert scope table }
  | .filter kind => do
      let bytes ← part base.file start stop
      let filter ← BlockedFilter.decode bytes
      .ok (base.setFilter filter kind)

/-- Load one blob of the index; unknown types are ignored. -/
def loadBlob (base : MappedBase) (blob : Puffin.BlobIndex) : Except Fault MappedBase :=
  let base := { base with sequence := max base.sequence blob.sequenceNumber.toInt.toNat }
  match blobKind blob.blobType with
  | none => .ok base
  | some kind => base.loadKind blob blob.offset ((blob.offset + blob.length) % 2 ^ 64) kind

/-- Note a scope under a root, once. -/
def noteScope (scopes : Std.TreeMap NodeId (List ScopeId)) (root : NodeId) (scope : ScopeId) :
    Std.TreeMap NodeId (List ScopeId) :=
  let entry := scopes.getD root []
  scopes.insert root (if scope ∈ entry then entry else entry ++ [scope])

/-- Rebuild the registry by scanning the overlays. -/
def buildFallbackRegistry (base : MappedBase) :
    Except Fault (Std.TreeMap NodeId (List ScopeId)) :=
  base.overlays.toList.foldlM (fun scopes overlay =>
    (List.range overlay.2.count).foldlM (fun scopes i => do
      let node ← overlay.2.keyAt base.file i
      let root ← overlay.2.valueAt base.file i
      [node, root].foldlM (fun scopes member => do
        let live ← base.sharedParent member
        .ok (noteScope scopes (live.getD member) overlay.1)) scopes) scopes) ∅

/-- A file without a registry gets one in memory. -/
def withFallback (base : MappedBase) : Except Fault MappedBase :=
  if base.registry.isNone ∧ ¬ base.overlays.isEmpty then do
    let fallback ← base.buildFallbackRegistry
    .ok { base with fallbackRegistry := some fallback }
  else
    .ok base

/-- Build the sparse index of every table. -/
def withIndexes (base : MappedBase) : Except Fault MappedBase := do
  let shared := base.shared.toList
  let scopes := base.overlays.toList
  let built ← buildIndexes base.file (shared ++ scopes.map Prod.snd)
  .ok { base with
    shared := (built.take shared.length).head?
    overlays := Std.TreeMap.ofList ((scopes.map Prod.fst).zip (built.drop shared.length)) }

/-- Map a Puffin routing snapshot. -/
def build (codec : Puffin.FooterCodec) (file : List UInt8) : Except Fault MappedBase := do
  let index ← Puffin.readIndex codec file
  let base ← index.foldlM loadBlob (empty file)
  let base ← base.withFallback
  base.withIndexes

end MappedBase

end Blaze
