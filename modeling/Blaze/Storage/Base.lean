import Blaze.Core.Base
import Blaze.Lib.PairTable
import Mathlib.Data.Prod.Lex
import Std.Data.TreeMap

/-!
# One routing file

A Puffin file after its tables have been decoded: the shared pairs, the overlay
pairs of each scope, and the registry run, which may be missing from files of an
older format.  Filters and sparse indexes only speed lookups up and are left
out here; a table lookup is a search for the key.
-/

namespace Blaze

open RootMap PairTable

/-- Registry entries are ordered by root, then by scope. -/
abbrev RegistryEntry := NodeId ×ₗ ScopeId

/-- A registry entry from its parts. -/
def registryEntry (root : NodeId) (scope : ScopeId) : RegistryEntry :=
  toLex (root, scope)

@[simp]
theorem registryEntry_inj {root root' : NodeId} {scope scope' : ScopeId} :
    registryEntry root scope = registryEntry root' scope' ↔ root = root' ∧ scope = scope' := by
  simp [registryEntry]

/-- The decoded tables of one routing file. -/
structure PuffinBase where
  shared : List (NodeId × NodeId)
  overlays : Std.TreeMap ScopeId (List (NodeId × NodeId))
  registry : Option (List RegistryEntry)

namespace PuffinBase

/-- The overlay pairs of a scope; a scope without a table has none. -/
def overlay (base : PuffinBase) (scope : ScopeId) : List (NodeId × NodeId) :=
  base.overlays.getD scope []

def sharedParent (base : PuffinBase) (node : NodeId) : Option NodeId :=
  base.shared.lookup node

def overlayParent (base : PuffinBase) (scope : ScopeId) (node : NodeId) : Option NodeId :=
  (base.overlay scope).lookup node

/-- Rebuild `root → scopes` from the overlay members of a file that carries no
registry. -/
def fallbackScopes (base : PuffinBase) (root : NodeId) : List ScopeId :=
  base.overlays.keys.filter fun scope =>
    (base.overlay scope).any fun pair =>
      [pair.1, pair.2].any fun member => (base.sharedParent member).getD member = root

def scopesForRoot (base : PuffinBase) (root : NodeId) : List ScopeId :=
  match base.registry with
  | some entries =>
      (entries.filter fun entry => (ofLex entry).1 = root).map fun entry => (ofLex entry).2
  | none => base.fallbackScopes root

def scopes (base : PuffinBase) : List ScopeId :=
  base.overlays.keys

/-- The stored registry run; nothing when the file carries none. -/
def registryIter (base : PuffinBase) : List RegistryEntry :=
  base.registry.getD []

/-- The shared root map the file encodes. -/
def sharedRoot (base : PuffinBase) : NodeId → NodeId :=
  tableRoot base.shared

/-- The overlay root map the file encodes for one scope. -/
def overlayRoot (base : PuffinBase) (scope : ScopeId) : NodeId → NodeId :=
  tableRoot (base.overlay scope)

/-- Every table is resolved, the registry run ascends, and a file with overlay
pairs has one. -/
structure WellFormed (base : PuffinBase) : Prop where
  shared : Resolved base.shared
  overlays : ∀ s, Resolved (base.overlay s)
  registry : base.registryIter.Pairwise (· < ·)
  indexed : base.registryIter = [] → ∀ s, base.overlay s = []

theorem mem_scopes_of_overlayRoot {base : PuffinBase} {s : ScopeId} {x : NodeId}
    (moved : base.overlayRoot s x ≠ x) : s ∈ base.scopes := by
  rw [scopes, Std.TreeMap.mem_keys]
  by_contra absent
  apply moved
  simp [overlayRoot, overlay, Std.TreeMap.getD_eq_fallback absent]

theorem mem_scopesForRoot_of_registry {base : PuffinBase} {entries : List RegistryEntry}
    (stored : base.registry = some entries) (root : NodeId) (s : ScopeId) :
    s ∈ base.scopesForRoot root ↔ registryEntry root s ∈ entries := by
  simp only [scopesForRoot, stored, List.mem_map, List.mem_filter, decide_eq_true_eq]
  constructor
  · rintro ⟨entry, ⟨member, rootEq⟩, rfl⟩
    rw [← rootEq]
    exact member
  · intro member
    exact ⟨registryEntry root s, ⟨member, rfl⟩, rfl⟩

/-- In a well-formed file the registry run answers every scope query. -/
theorem WellFormed.mem_scopesForRoot {base : PuffinBase} (wellFormed : base.WellFormed)
    (root : NodeId) (s : ScopeId) :
    s ∈ base.scopesForRoot root ↔ registryEntry root s ∈ base.registryIter := by
  cases stored : base.registry with
  | some entries =>
    rw [mem_scopesForRoot_of_registry stored, registryIter, stored]
    rfl
  | none =>
    have empty : base.registryIter = [] := by
      rw [registryIter, stored]
      rfl
    have noPairs := wellFormed.indexed empty
    rw [empty]
    simp [scopesForRoot, stored, fallbackScopes, noPairs]

end PuffinBase

end Blaze
