import Blaze.Core.Types
import Blaze.Lib.RootMap

/-!
# The routing base

Committed state that lives outside the heap: an immutable snapshot of the shared
tier, of every scope's overlay and of the reverse index from shared roots to
scopes.  A forest composes at most one base with its memtable, so most of this
file is about `Option β`, where no base behaves as the identity.
-/

namespace Blaze

open RootMap

universe u

/-- A committed, immutable routing snapshot.  The two pair visitors of the
source, which call back in ascending node order, are the lists they visit. -/
class RoutingBase (β : Type u) where
  sharedParent : β → NodeId → Option NodeId
  overlayParent : β → ScopeId → NodeId → Option NodeId
  scopesForRoot : β → NodeId → List ScopeId
  scopes : β → List ScopeId
  sharedPairs : β → List (NodeId × NodeId)
  overlayPairs : β → ScopeId → List (NodeId × NodeId)

namespace RoutingBase

variable {β : Type u} [RoutingBase β]

/-- The shared root of a node as of the base; without a base, the node. -/
def sharedRoot (base : Option β) (x : NodeId) : NodeId :=
  (base.bind fun b => sharedParent b x).getD x

/-- The overlay root of a node as of the base; without a base, the node. -/
def overlayRoot (base : Option β) (s : ScopeId) (x : NodeId) : NodeId :=
  (base.bind fun b => overlayParent b s x).getD x

/-- The scopes the base has recorded at a shared root. -/
def recordedScopes (base : Option β) (root : NodeId) : List ScopeId :=
  (base.map fun b => scopesForRoot b root).getD []

/-- The scopes with overlay state in the base. -/
def baseScopes (base : Option β) : List ScopeId :=
  (base.map scopes).getD []

/-- The nodes the base stores a shared parent for, ascending. -/
def sharedKeys (base : Option β) : List NodeId :=
  (base.map fun b => (sharedPairs b).map Prod.fst).getD []

/-- The nodes the base stores a parent for in one overlay, ascending. -/
def overlayKeys (base : Option β) (s : ScopeId) : List NodeId :=
  (base.map fun b => (overlayPairs b s).map Prod.fst).getD []

/-- What a forest relies on: the two tiers are resolved, and the pair visitors
list exactly the nodes that move, in strictly ascending order. -/
structure Lawful (base : Option β) : Prop where
  shared : IsRootMap (sharedRoot base)
  overlay : ∀ s, IsRootMap (overlayRoot base s)
  sharedKeys_ascending : (sharedKeys base).Pairwise (· < ·)
  mem_sharedKeys : ∀ x, x ∈ sharedKeys base ↔ sharedRoot base x ≠ x
  overlayKeys_ascending : ∀ s, (overlayKeys base s).Pairwise (· < ·)
  mem_overlayKeys : ∀ s x, x ∈ overlayKeys base s ↔ overlayRoot base s x ≠ x
  scopes_complete : ∀ s x, overlayRoot base s x ≠ x → s ∈ baseScopes base

@[simp]
theorem sharedRoot_none : sharedRoot (none : Option β) = fun x => x :=
  rfl

@[simp]
theorem overlayRoot_none (s : ScopeId) : overlayRoot (none : Option β) s = fun x => x :=
  rfl

theorem lawful_none : Lawful (none : Option β) where
  shared := isRootMap_id
  overlay _ := isRootMap_id
  sharedKeys_ascending := List.Pairwise.nil
  mem_sharedKeys := by simp [sharedKeys]
  overlayKeys_ascending _ := List.Pairwise.nil
  mem_overlayKeys := by simp [overlayKeys]
  scopes_complete := by simp

end RoutingBase

end Blaze
