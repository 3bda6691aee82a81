import Blaze.Core.MergeEdges
import Blaze.Lib.CappedWalk
import Blaze.Storage.Blobs

/-!
# Listing a component

The members of a component are listed downward: through the merge edges of the
memtable and through the member index of every layer of the base.  A run written
with the index on carries the pairs of its tables a second time, by parent; like
the other tables they are taken here as they are decoded, which is the same for
both encodings.  The filters over the parents only save searches; they come in where
the index is read from the bytes of a file.
-/

namespace Blaze

open RootMap PairTable LayeredBase CappedWalk

/-! ## Reading the index -/

/-- The member table written for the pairs of a routing table.  The writer hands out
no blob when nothing was pushed. -/
def memberTable (pairs : List (NodeId × NodeId)) : Option (List (NodeId ×ₗ NodeId)) :=
  let inverted := invertPairs pairs
  if inverted.isEmpty then none else some inverted

/-- All children recorded for a parent. -/
def childrenIn (table : List (NodeId ×ₗ NodeId)) (parent : NodeId) : List NodeId :=
  (table.filter fun pair => (ofLex pair).1 = parent).map fun pair => (ofLex pair).2

namespace PuffinBase

/-- The member table of the shared pairs, for a run that was written with the index
in some encoding or without it. -/
def sharedMembers (file : PuffinBase) (written : Option MemberEncoding) :
    Option (List (NodeId ×ₗ NodeId)) :=
  written.bind fun _ => memberTable file.shared

/-- The member table of one scope. -/
def overlayMembers (file : PuffinBase) (written : Option MemberEncoding) (scope : ScopeId) :
    Option (List (NodeId ×ₗ NodeId)) :=
  written.bind fun _ => memberTable (file.overlay scope)

/-- Whether the run carries a member index, told from the table of its shared
pairs. -/
def hasMemberIndex (file : PuffinBase) (written : Option MemberEncoding) : Bool :=
  (file.sharedMembers written).isSome

/-- At most `limit` nodes whose recorded shared parent is `parent`. -/
def sharedChildren (file : PuffinBase) (written : Option MemberEncoding) (parent : NodeId)
    (limit : Nat) : List NodeId :=
  ((file.sharedMembers written).map fun table => (childrenIn table parent).take limit).getD []

/-- The same within an overlay. -/
def overlayChildren (file : PuffinBase) (written : Option MemberEncoding) (scope : ScopeId)
    (parent : NodeId) (limit : Nat) : List NodeId :=
  ((file.overlayMembers written scope).map fun table =>
    (childrenIn table parent).take limit).getD []

end PuffinBase

/-- How each run was written: with a member index in some encoding, or without. -/
abbrev Written := PuffinBase → Option MemberEncoding

namespace LayeredBase

/-- Collect from every layer in turn what the limit has left. -/
def gather (fetch : PuffinBase → Nat → List NodeId) (layers : List PuffinBase) (limit : Nat) :
    List NodeId :=
  layers.foldl (fun out layer =>
    if out.length ≥ limit then out else out ++ fetch layer (limit - out.length)) []

/-- A stack can answer only if every layer can. -/
def hasMemberIndex (base : LayeredBase) (written : Written) : Bool :=
  base.layers.all fun layer => layer.hasMemberIndex (written layer)

def sharedChildren (base : LayeredBase) (written : Written) (parent : NodeId) (limit : Nat) :
    List NodeId :=
  gather (fun layer => layer.sharedChildren (written layer) parent) base.layers limit

def overlayChildren (base : LayeredBase) (written : Written) (scope : ScopeId) (parent : NodeId)
    (limit : Nat) : List NodeId :=
  gather (fun layer => layer.overlayChildren (written layer) scope parent) base.layers limit

end LayeredBase

/-! ## The query -/

/-- The answer to a member query. -/
inductive Members where
  | complete (nodes : List NodeId)
  | truncated (nodes : List NodeId)
  deriving DecidableEq, Repr

namespace Members

def nodes : Members → List NodeId
  | complete nodes => nodes
  | truncated nodes => nodes

def isTruncated : Members → Bool
  | complete _ => false
  | truncated _ => true

end Members

/-- A fresh walk from the seeds; its budget is a machine word. -/
def walkFrom (cap : Nat) (seeds : List NodeId) (fetch : NodeId → Nat → List NodeId) :
    Walk NodeId :=
  (Walk.new cap).expand ((cap + 1) % 2 ^ 64) seeds fetch

def finishWalk (walk : Walk NodeId) : Members :=
  if walk.truncated then .truncated walk.out else .complete walk.out

namespace Tier

/-- Children in the shared tier, from the memtable first. -/
def sharedFetch (t : Tier LayeredBase) (written : Written) (k : NodeId) (limit : Nat) :
    List NodeId :=
  let out := t.mem.global.childrenOf k limit
  match t.base with
  | none => out
  | some base => out ++ base.sharedChildren written k (limit - out.length)

/-- Children in the overlay of a scope. -/
def overlayFetch (t : Tier LayeredBase) (written : Written) (scope : ScopeId) (k : NodeId)
    (limit : Nat) : List NodeId :=
  let out := (t.mem.overlays[scope]?.map fun overlay => overlay.childrenOf k limit).getD []
  match t.base with
  | none => out
  | some base => out ++ base.overlayChildren written scope k (limit - out.length)

end Tier

namespace ScopedForest

/-- Whether member queries can be answered right now. -/
def membersAvailable (f : ScopedForest LayeredBase) (written : Written) : Bool :=
  f.memberIndex && f.tier.base.all fun base => base.hasMemberIndex written

/-- Everyone in the component of `node` as `scope` sees it, up to `cap`.  In a tenant
scope the overlay leads to the shared roots that the scope has put together, and the
shared tier from there to the members. -/
def members (f : ScopedForest LayeredBase) (written : Written) (scope : ScopeId) (node : NodeId)
    (cap : Nat) : ScopedForest LayeredBase × Option Members :=
  if !f.memberIndex then
    (f, none)
  else if f.tier.base.any fun base => !base.hasMemberIndex written then
    (f, none)
  else
    let (t, shared) := f.tier.sharedRoot node false
    if scope = globalScope then
      (f.setTier t, some (finishWalk (walkFrom cap [shared] (t.sharedFetch written))))
    else
      let (t, root) := t.overlayRoot scope shared false
      let seeds := walkFrom (min (cap + 1) (2 ^ 64 - 1)) [root] (t.overlayFetch written scope)
      (f.setTier t, some (finishWalk (walkFrom cap seeds.out (t.sharedFetch written))))

end ScopedForest

end Blaze
