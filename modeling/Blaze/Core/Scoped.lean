import Blaze.Core.Base
import Blaze.Core.Dsu
import Std.Data.TreeSet

/-!
# The scoped forest

One global structure, a sparse overlay per scope, and a registry from shared
roots to the scopes holding overlay state keyed on them.  A tier composes this
memtable with an optional committed base.  Lookups compress paths, so every
function returns the tier it leaves behind together with its answer.

Compaction and folding stream the state to a sink; the stream is modelled as the
list of calls the sink receives, in order.
-/

namespace Blaze

universe u v

/-- The in-heap half of a tier: everything applied since the base. -/
structure Memtable where
  global : Dsu
  overlays : Std.TreeMap ScopeId Dsu
  registry : Std.TreeMap NodeId (Std.TreeSet ScopeId)
  memberIndex : Bool

namespace Memtable

def new (memberIndex : Bool) : Memtable where
  global := Dsu.trackingMembers memberIndex
  overlays := ∅
  registry := ∅
  memberIndex := memberIndex

/-- The overlay of a scope, created with this memtable's index setting when it
does not exist yet. -/
def overlay (mem : Memtable) (scope : ScopeId) : Dsu :=
  mem.overlays.getD scope (Dsu.trackingMembers mem.memberIndex)

def setOverlay (mem : Memtable) (scope : ScopeId) (d : Dsu) : Memtable :=
  { mem with overlays := mem.overlays.insert scope d }

def setGlobal (mem : Memtable) (d : Dsu) : Memtable :=
  { mem with global := d }

/-- The scopes registered at a shared root. -/
def scopesAt (mem : Memtable) (root : NodeId) : Std.TreeSet ScopeId :=
  mem.registry.getD root ∅

/-- Add scopes to the entry of a shared root. -/
def register (mem : Memtable) (root : NodeId) (scopes : List ScopeId) : Memtable :=
  { mem with registry := mem.registry.insert root ((mem.scopesAt root).insertMany scopes) }

def unregister (mem : Memtable) (root : NodeId) : Memtable :=
  { mem with registry := mem.registry.erase root }

end Memtable

/-- One consistent generation of forest state. -/
structure Tier (β : Type u) where
  base : Option β
  mem : Memtable

/-- What a snapshot sink is told, in the order it is told. -/
inductive SinkCall where
  | sharedPair (node root : NodeId)
  | scopeStart (scope : ScopeId)
  | overlayPair (node root : NodeId)
  | registryEntry (root : NodeId) (scope : ScopeId)
  | scopeEnd (scope : ScopeId)
  deriving DecidableEq, Repr

namespace Dsu

/-- `find` on the write path, `findRo` on the query path. -/
def lookup (d : Dsu) (compress : Bool) (x : NodeId) : Dsu × NodeId :=
  if compress then d.find x else d.findRo x

end Dsu

namespace Tier

variable {β : Type u} [RoutingBase β]

def setGlobal (t : Tier β) (d : Dsu) : Tier β :=
  { t with mem := t.mem.setGlobal d }

def setOverlay (t : Tier β) (scope : ScopeId) (d : Dsu) : Tier β :=
  { t with mem := t.mem.setOverlay scope d }

def register (t : Tier β) (root : NodeId) (scopes : List ScopeId) : Tier β :=
  { t with mem := t.mem.register root scopes }

def unregister (t : Tier β) (root : NodeId) : Tier β :=
  { t with mem := t.mem.unregister root }

/-- Shared-tier root of `node`, composing base and memtable. -/
def sharedRoot (t : Tier β) (node : NodeId) (compress : Bool) : Tier β × NodeId :=
  let (global, m) := t.mem.global.lookup compress node
  let t := t.setGlobal global
  if m ≠ node then
    (t, m)
  else
    match t.base.bind fun b => RoutingBase.sharedParent b node with
    | none => (t, node)
    | some b =>
        if b ≠ node then
          let (global, root) := t.mem.global.lookup compress b
          (t.setGlobal global, root)
        else
          (t, node)

/-- Overlay root of `sharedRoot` within `scope`, composing base and memtable. -/
def overlayRoot (t : Tier β) (scope : ScopeId) (sharedRoot : NodeId) (compress : Bool) :
    Tier β × NodeId :=
  match t.mem.overlays[scope]? with
  | none =>
      match t.base.bind fun b => RoutingBase.overlayParent b scope sharedRoot with
      | none => (t, sharedRoot)
      | some b => if b = sharedRoot then (t, sharedRoot) else (t, b)
  | some overlay =>
      let (overlay, m) := overlay.lookup compress sharedRoot
      let t := t.setOverlay scope overlay
      if m ≠ sharedRoot then
        (t, m)
      else
        match t.base.bind fun b => RoutingBase.overlayParent b scope sharedRoot with
        | none => (t, sharedRoot)
        | some b =>
            if b = sharedRoot then
              (t, sharedRoot)
            else
              let (overlay, root) := overlay.lookup compress b
              (t.setOverlay scope overlay, root)

/-- Tell the sink about a node unless it is its own shared root. -/
def emitShared (t : Tier β) (node : NodeId) : Tier β × List SinkCall :=
  let (t, root) := t.sharedRoot node false
  (t, if root ≠ node then [.sharedPair node root] else [])

/-- Tell the sink about an overlay node, and about the live shared roots of the
pair's two endpoints. -/
def emitOverlay (scope : ScopeId) (t : Tier β) (node : NodeId) : Tier β × List SinkCall :=
  let (t, root) := t.overlayRoot scope node false
  if root = node then
    (t, [])
  else
    let (t, a) := t.sharedRoot node false
    let (t, b) := t.sharedRoot root false
    (t, [.overlayPair node root, .registryEntry a scope] ++
      if b ≠ a then [.registryEntry b scope] else [])

/-- Emit a list of nodes, or of scopes, one after the other. -/
def emitEach {α : Type} (emit : Tier β → α → Tier β × List SinkCall) :
    List α → Tier β → Tier β × List SinkCall
  | [], t => (t, [])
  | item :: items, t =>
      let (t, first) := emit t item
      let (t, rest) := emitEach emit items t
      (t, first ++ rest)

/-- The keys of one scope's memtable overlay, ascending. -/
def overlayKeys (t : Tier β) (scope : ScopeId) : List NodeId :=
  (t.mem.overlays[scope]?.map Dsu.keys).getD []

/-- Stream one scope: open it, emit the given keys, close it. -/
def emitScope (keys : Tier β → ScopeId → List NodeId) (t : Tier β) (scope : ScopeId) :
    Tier β × List SinkCall :=
  let (t, calls) := emitEach (emitOverlay scope) (keys t scope) t
  (t, [.scopeStart scope] ++ calls ++ [.scopeEnd scope])

/-- Stream the memtable's own pairs, in the order the sink requires. -/
def streamMemtable (t : Tier β) : Tier β × List SinkCall :=
  let (t, shared) := emitEach emitShared t.mem.global.keys t
  let (t, overlays) := emitEach (emitScope overlayKeys) t.mem.overlays.keys t
  (t, shared ++ overlays)

/-- The order in which compaction visits keys: the base's ascending keys, with
the memtable's ascending keys joined in and an equal key visited once. -/
def joinKeys : List NodeId → List NodeId → List NodeId
  | mem, [] => mem
  | mem, k :: base =>
      let rest := mem.dropWhile (· < k)
      mem.takeWhile (· < k) ++ k :: joinKeys (if rest.head? = some k then rest.tail else rest) base

/-- The keys compaction visits in one scope. -/
def compactKeys (t : Tier β) (scope : ScopeId) : List NodeId :=
  joinKeys (t.overlayKeys scope) (RoutingBase.overlayKeys t.base scope)

/-- Stream the composed state: every key of base and memtable. -/
def compactLocked (t : Tier β) : Tier β × List SinkCall :=
  let (t, shared) :=
    emitEach emitShared (joinKeys t.mem.global.keys (RoutingBase.sharedKeys t.base)) t
  let scopeIds := SortDedup.sortDedup (t.mem.overlays.keys ++ RoutingBase.baseScopes t.base)
  let (t, overlays) := emitEach (emitScope compactKeys) scopeIds t
  (t, shared ++ overlays)

end Tier

/-- A point-in-time capture of the whole forest. -/
structure ForestSnapshot where
  global : List (NodeId × NodeId)
  scopes : List (ScopeId × List (NodeId × NodeId))
  deriving DecidableEq, Repr

/-- Collects a stream back into a snapshot. -/
structure SnapshotCollector where
  global : List (NodeId × NodeId)
  scopes : List (ScopeId × List (NodeId × NodeId))
  opened : Option (ScopeId × List (NodeId × NodeId))

namespace SnapshotCollector

def new : SnapshotCollector :=
  ⟨[], [], none⟩

/-- Handle one sink call. -/
def receive (c : SnapshotCollector) : SinkCall → SnapshotCollector
  | .sharedPair node root => { c with global := c.global ++ [(node, root)] }
  | .scopeStart scope => { c with opened := some (scope, []) }
  | .overlayPair node root =>
      { c with opened := c.opened.map fun opened => (opened.1, opened.2 ++ [(node, root)]) }
  | .registryEntry _ _ => c
  | .scopeEnd _ =>
      match c.opened with
      | none => c
      | some (scope, pairs) =>
          if pairs.isEmpty then
            { c with opened := none }
          else
            { c with opened := none, scopes := c.scopes ++ [(scope, pairs)] }

end SnapshotCollector

/-- The forest: its current tier, whether memtables track members, and the
counters it reports. -/
structure ScopedForest (β : Type u) where
  tier : Tier β
  memberIndex : Bool
  eventsApplied : Nat
  scopeLinks : Nat
  fixups : Nat
  folds : Nat

namespace ScopedForest

variable {β : Type u} [RoutingBase β]

def new : ScopedForest β where
  tier := ⟨none, Memtable.new false⟩
  memberIndex := false
  eventsApplied := 0
  scopeLinks := 0
  fixups := 0
  folds := 0

/-- A forest whose committed state is served from `base`. -/
def withBase (base : β) : ScopedForest β :=
  { (new : ScopedForest β) with tier := ⟨some base, Memtable.new false⟩ }

/-- Track merge edges downward; called before any event is applied. -/
def trackingMembers (f : ScopedForest β) : ScopedForest β :=
  { f with memberIndex := true, tier := { f.tier with mem := Memtable.new true } }

def setTier (f : ScopedForest β) (t : Tier β) : ScopedForest β :=
  { f with tier := t }

/-- Links held in the heap. -/
def memtableLinks (f : ScopedForest β) : Nat :=
  f.tier.mem.overlays.toList.foldl (fun links entry => links + entry.2.lenLinks)
    f.tier.mem.global.lenLinks

/-- Record in one scope's overlay that an absorbed shared root and its survivor
are the same component. -/
def fixUp (merge : Merge) (f : ScopedForest β) (scope : ScopeId) : ScopedForest β :=
  let (t, a) := f.tier.overlayRoot scope merge.child true
  let (t, b) := t.overlayRoot scope merge.parent true
  if a ≠ b then
    { f with
      tier := t.setOverlay scope ((t.mem.overlay scope).union a b).1
      fixups := f.fixups + 1 }
  else
    f.setTier t

/-- The scopes a merge has to notify, ascending: those registered in the
memtable and those the base has recorded. -/
def notified (t : Tier β) (root : NodeId) : List ScopeId :=
  ((t.mem.scopesAt root).insertMany (RoutingBase.recordedScopes t.base root)).toList

/-- Tell every scope that keyed overlay state on an absorbed root, and move the
registrations to the survivor. -/
def notify (f : ScopedForest β) (merge : Merge) : ScopedForest β :=
  let scopes := notified f.tier merge.child
  let f := scopes.foldl (fixUp merge) (f.setTier (f.tier.unregister merge.child))
  if scopes.isEmpty then f else f.setTier (f.tier.register merge.parent scopes)

def applyGlobal (f : ScopedForest β) (u v : NodeId) : ScopedForest β :=
  let (t, ru) := f.tier.sharedRoot u true
  let (t, rv) := t.sharedRoot v true
  let (global, merged) := t.mem.global.union ru rv
  let f := f.setTier (t.setGlobal global)
  match merged with
  | none => f
  | some merge => f.notify merge

/-- Link two shared roots in one scope's overlay and register both. -/
def linkScoped (ru rv : NodeId) (f : ScopedForest β) (scope : ScopeId) : ScopedForest β :=
  let (t, a) := f.tier.overlayRoot scope ru true
  let (t, b) := t.overlayRoot scope rv true
  let t := t.setOverlay scope ((t.mem.overlay scope).union a b).1
  { f with
    tier := (t.register ru [scope]).register rv [scope]
    scopeLinks := f.scopeLinks + 1 }

def applyScoped (f : ScopedForest β) (u v : NodeId) (scopes : List ScopeId) : ScopedForest β :=
  let (t, ru) := f.tier.sharedRoot u true
  let (t, rv) := t.sharedRoot v true
  scopes.foldl (linkScoped ru rv) (f.setTier t)

/-- Apply one edge event to the topology. -/
def apply (f : ScopedForest β) (event : EdgeEvent) : ScopedForest β :=
  let applied := match event.visibility.normalize with
    | .global => f.applyGlobal event.src event.dst
    | .scopedTo scopes => f.applyScoped event.src event.dst scopes
  { applied with eventsApplied := applied.eventsApplied + 1 }

/-- Component representative of `node` as seen by `scope`. -/
def scopeRoot (f : ScopedForest β) (scope : ScopeId) (node : NodeId) :
    ScopedForest β × NodeId :=
  let (t, g) := f.tier.sharedRoot node false
  if scope = globalScope then
    (f.setTier t, g)
  else
    let (t, root) := t.overlayRoot scope g false
    (f.setTier t, root)

/-- Whether `u` and `v` are connected in `scope`'s view. -/
def connected (f : ScopedForest β) (scope : ScopeId) (u v : NodeId) : ScopedForest β × Bool :=
  let (f, ru) := f.scopeRoot scope u
  let (f, rv) := f.scopeRoot scope v
  (f, decide (ru = rv))

/-- Stream the composed state to a sink. -/
def compactInto (f : ScopedForest β) : ScopedForest β × List SinkCall :=
  let (t, calls) := f.tier.compactLocked
  (f.setTier t, calls)

/-- Capture a consistent snapshot in the heap. -/
def snapshot (f : ScopedForest β) : ScopedForest β × ForestSnapshot :=
  let (f, calls) := f.compactInto
  let c := calls.foldl SnapshotCollector.receive SnapshotCollector.new
  (f, ⟨c.global, c.scopes⟩)

/-- Install a base over an empty memtable and count the fold. -/
def adopt (f : ScopedForest β) (base : β) : ScopedForest β :=
  { f with tier := ⟨some base, Memtable.new f.memberIndex⟩, folds := f.folds + 1 }

/-- Compact everything, let `build` turn the stream into a base, adopt it and
drop the memtable.  A failing `build` leaves the forest as it was, apart from
compressed paths. -/
def compactAndFold {ε : Type v} {α : Type v} (f : ScopedForest β)
    (build : List SinkCall → Except ε (β × α)) : ScopedForest β × Except ε α :=
  let (f, calls) := f.compactInto
  match build calls with
  | .error e => (f, .error e)
  | .ok (base, out) => (f.adopt base, .ok out)

/-- Stream only the memtable and let `build` layer it over the current base. -/
def foldDelta {ε : Type v} {α : Type v} (f : ScopedForest β)
    (build : List SinkCall → Option β → Except ε (β × α)) : ScopedForest β × Except ε α :=
  let (t, calls) := f.tier.streamMemtable
  match build calls t.base with
  | .error e => (f.setTier t, .error e)
  | .ok (base, out) => ((f.setTier t).adopt base, .ok out)

/-- Install a base that resolves as the current one does, keeping the
memtable. -/
def swapBase (f : ScopedForest β) (base : β) : ScopedForest β :=
  f.setTier { f.tier with base := some base }

/-- Register both endpoints of an overlay pair under their live shared roots. -/
def registerPair (scope : ScopeId) (mem : Memtable) (pair : NodeId × NodeId) : Memtable :=
  [pair.1, pair.2].foldl
    (fun mem m =>
      let (global, live) := mem.global.find m
      (mem.setGlobal global).register live [scope])
    mem

/-- Load one scope's overlay pairs. -/
def hydrateScope (f : ScopedForest β) (entry : ScopeId × List (NodeId × NodeId)) :
    ScopedForest β :=
  let mem := f.tier.mem.setOverlay entry.1 ((f.tier.mem.overlay entry.1).hydrate entry.2)
  { f with
    tier := { f.tier with mem := entry.2.foldl (registerPair entry.1) mem }
    scopeLinks := f.scopeLinks + entry.2.length }

/-- Rebuild forest state from a snapshot; used without a base. -/
def hydrate (f : ScopedForest β) (snap : ForestSnapshot) : ScopedForest β :=
  let mem := f.tier.mem.setGlobal (f.tier.mem.global.hydrate snap.global)
  snap.scopes.foldl hydrateScope (f.setTier { f.tier with mem := mem })

end ScopedForest

end Blaze
