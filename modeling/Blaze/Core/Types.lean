import Blaze.Lib.SortDedup

/-!
# Identifiers and edge events

Node, scope, partition and offset numbers are natural numbers: nothing in the
modelled code computes with them beyond comparison and incrementing a sequence.
-/

namespace Blaze

variable {visibility : Visibility} {scopes : List ScopeId}

/-- Identifier of a graph node. -/
abbrev NodeId := Nat

/-- Identifier of a tenant scope. -/
abbrev ScopeId := Nat

/-- The scope whose edges take part in every scope's view. -/
def globalScope : ScopeId := 0

/-- Which tenants may see an edge. -/
inductive Visibility where
  | global
  | scopedTo (scopes : List ScopeId)
  deriving DecidableEq, Repr

namespace Visibility

/-- An empty scope list, or one that contains the global scope, means global;
any other list is sorted and deduplicated. -/
def normalize : Visibility → Visibility
  | global => global
  | scopedTo scopes =>
      if scopes.isEmpty || scopes.contains globalScope then
        global
      else
        scopedTo (SortDedup.sortDedup scopes)

/-- An event is seen in scope `s` when it is global or lists `s`. -/
def VisibleIn (visibility : Visibility) (s : ScopeId) : Prop :=
  match visibility.normalize with
  | global => True
  | scopedTo scopes => s ∈ scopes

theorem visibleIn_of_global (isGlobal : visibility.normalize = global) (s : ScopeId) :
    visibility.VisibleIn s := by
  simp [VisibleIn, isGlobal]

theorem visibleIn_iff_mem (isScoped : visibility.normalize = scopedTo scopes) (s : ScopeId) :
    visibility.VisibleIn s ↔ s ∈ scopes := by
  simp [VisibleIn, isScoped]

instance (visibility : Visibility) (s : ScopeId) : Decidable (visibility.VisibleIn s) :=
  match normal : visibility.normalize with
  | global => isTrue (visibleIn_of_global normal s)
  | scopedTo scopes => decidable_of_iff (s ∈ scopes) (visibleIn_iff_mem normal s).symm

/-- A normalized scope list is strictly ascending and names no global scope. -/
theorem normalize_scoped (isScoped : visibility.normalize = scopedTo scopes) :
    scopes.Pairwise (· < ·) ∧ globalScope ∉ scopes := by
  cases visibility with
  | global => cases isScoped
  | scopedTo listed =>
    simp only [normalize] at isScoped
    split at isScoped
    · cases isScoped
    · next proper =>
        cases isScoped
        refine ⟨SortDedup.sortDedup_ascending listed, fun listedGlobal => proper ?_⟩
        rw [SortDedup.mem_sortDedup] at listedGlobal
        simp [listedGlobal]

/-- The global scope sees exactly the global edges. -/
theorem visibleIn_globalScope (visibility : Visibility) :
    visibility.VisibleIn globalScope ↔ visibility.normalize = global := by
  cases normal : visibility.normalize with
  | global => simp [visibleIn_of_global normal]
  | scopedTo scopes =>
    rw [visibleIn_iff_mem normal]
    simp [(normalize_scoped normal).2]

end Visibility

/-- A single edge event from the firehose. -/
structure EdgeEvent where
  src : NodeId
  dst : NodeId
  visibility : Visibility
  eventTimeMs : Int
  props : Option String
  deriving DecidableEq, Repr

end Blaze
