import Blaze.Core.Types
import Blaze.Lib.ParentForest
import Std.Data.TreeMap

/-!
# The disjoint-set union

A union-find over sparse node ids in which the smallest id of a component is its
representative.  `find` halves paths as it walks, `findRo` makes at most one
repair write, and `union` links the larger root below the smaller one; every
operation therefore returns the structure it leaves behind.

The root map `root` is the specification all of them are stated against: it
reads the pointers and writes nothing.
-/

namespace Blaze

open RootMap

variable {d : Dsu} {x : NodeId}

/-- Read-only walks longer than this make one compressing write. -/
def roCompressDepth : Nat := 8

/-- A union that joined two components: the absorbed root and the surviving
one. -/
structure Merge where
  child : NodeId
  parent : NodeId
  deriving DecidableEq, Repr

/-- Parent links, the merge edges downward when members are tracked, and the
number of successful merges. -/
structure Dsu where
  parents : Std.TreeMap NodeId NodeId
  children : Option (Std.TreeMap NodeId (List NodeId))
  merges : Nat

namespace Dsu

/-- A structure that records merge edges downward exactly when asked to. -/
def trackingMembers (track : Bool) : Dsu where
  parents := ∅
  children := if track then some ∅ else none
  merges := 0

def new : Dsu :=
  trackingMembers false

/-- The stored parent of a node. -/
def parentOf (d : Dsu) (x : NodeId) : Option NodeId :=
  d.parents[x]?

/-- Store a parent without recording a merge edge; this is the compressing
write. -/
def setParent (d : Dsu) (x target : NodeId) : Dsu :=
  { d with parents := d.parents.insert x target }

/-- Record `child → parent` in both directions. -/
def link (d : Dsu) (child parent : NodeId) : Dsu where
  parents := d.parents.insert child parent
  children := d.children.map fun kids => kids.insert parent (kids.getD parent [] ++ [child])
  merges := d.merges

/-- Path halving from `x`: while `x` has a grandparent, point it there and
continue from the grandparent.  Parents decrease, so `x + 1` rounds suffice. -/
def findLoop : Nat → Dsu → NodeId → Dsu × NodeId
  | 0, d, x => (d, x)
  | fuel + 1, d, x =>
      match d.parentOf x with
      | none => (d, x)
      | some p =>
          match d.parentOf p with
          | none => (d, p)
          | some gp => findLoop fuel (d.setParent x gp) gp

def find (d : Dsu) (x : NodeId) : Dsu × NodeId :=
  findLoop (x + 1) d x

/-- Read-only lookup: walk to the root counting steps, and repair the start
node's pointer when the walk was long. -/
def findRo (d : Dsu) (x : NodeId) : Dsu × NodeId :=
  let walked := ParentForest.walk d.parentOf (x + 1) x 0
  if walked.2 > roCompressDepth then (d.setParent x walked.1, walked.1) else (d, walked.1)

/-- Merge the components of `u` and `v`; the smaller root survives. -/
def union (d : Dsu) (u v : NodeId) : Dsu × Option Merge :=
  let (d, ru) := d.find u
  let (d, rv) := d.find v
  if ru = rv then
    (d, none)
  else
    let (child, parent) := if ru < rv then (rv, ru) else (ru, rv)
    ({ d.link child parent with merges := d.merges + 1 }, some ⟨child, parent⟩)

/-- Number of parent links. -/
def lenLinks (d : Dsu) : Nat :=
  d.parents.size

/-- Every node with a parent link.  The source collects them in map order and
sorts; here the map is ordered already. -/
def keys (d : Dsu) : List NodeId :=
  d.parents.keys

/-- Rebuild state from resolved `(node, root)` pairs. -/
def hydrate (d : Dsu) (pairs : List (NodeId × NodeId)) : Dsu :=
  let linked := pairs.foldl
    (fun d pair => if pair.1 ≠ pair.2 then d.link pair.1 pair.2 else d) d
  { linked with merges := linked.parents.size }

/-! ## The root map -/

/-- The representative of `x`, without compressing anything. -/
def root (d : Dsu) (x : NodeId) : NodeId :=
  ParentForest.root d.parentOf x

/-- Every stored parent is smaller than its child. -/
def Decreasing (d : Dsu) : Prop :=
  ParentForest.Decreasing d.parentOf

theorem decreasing_trackingMembers (track : Bool) : (trackingMembers track).Decreasing := by
  intro x p stored
  simp [parentOf, trackingMembers] at stored

@[simp]
theorem root_trackingMembers (track : Bool) (x : NodeId) : (trackingMembers track).root x = x :=
  ParentForest.root_of_none (by simp [parentOf, trackingMembers])

theorem isRootMap (decreasing : d.Decreasing) : IsRootMap d.root :=
  ParentForest.isRootMap_root decreasing

theorem parentOf_insert (d d' : Dsu) (x target : NodeId)
    (stored : d'.parents = d.parents.insert x target) :
    d'.parentOf = ParentForest.repoint d.parentOf x target := by
  funext y
  rw [parentOf, stored, Std.TreeMap.getElem?_insert, ParentForest.repoint]
  simp only [compare_eq_iff_eq, parentOf]
  by_cases same : x = y
  · subst same; simp
  · simp [same, Ne.symm same]

@[simp]
theorem parentOf_setParent (d : Dsu) (x target : NodeId) :
    (d.setParent x target).parentOf = ParentForest.repoint d.parentOf x target :=
  parentOf_insert d _ x target rfl

@[simp]
theorem parentOf_link (d : Dsu) (child parent : NodeId) :
    (d.link child parent).parentOf = ParentForest.repoint d.parentOf child parent :=
  parentOf_insert d _ child parent rfl

theorem mem_keys_iff (decreasing : d.Decreasing) (x : NodeId) : x ∈ d.keys ↔ d.root x ≠ x := by
  rw [keys, Std.TreeMap.mem_keys, Std.TreeMap.mem_iff_isSome_getElem?, ne_eq, root,
    ParentForest.root_eq_self_iff decreasing, ← ne_eq, Option.ne_none_iff_isSome]
  rfl

theorem keys_ascending (d : Dsu) : d.keys.Pairwise (· < ·) := by
  refine (Std.TreeMap.ordered_keys (t := d.parents)).imp ?_
  intro a b before
  exact Nat.compare_eq_lt.mp before

/-! ## Compression -/

/-- `d'` is `d` after some compressing writes: same roots, nothing else
changed. -/
structure CompressedTo (d d' : Dsu) : Prop where
  decreasing : d'.Decreasing
  root_eq : d'.root = d.root
  children_eq : d'.children = d.children
  merges_eq : d'.merges = d.merges

namespace CompressedTo

theorem refl (decreasing : d.Decreasing) : CompressedTo d d :=
  ⟨decreasing, rfl, rfl, rfl⟩

theorem trans {d' d'' : Dsu} (first : CompressedTo d d') (second : CompressedTo d' d'') :
    CompressedTo d d'' :=
  ⟨second.decreasing, second.root_eq.trans first.root_eq,
    second.children_eq.trans first.children_eq, second.merges_eq.trans first.merges_eq⟩

end CompressedTo

/-- Pointing a node at a smaller node of its own tree is a compression. -/
theorem compressedTo_setParent (decreasing : d.Decreasing) {target : NodeId} (smaller : target < x)
    (sameTree : d.root target = d.root x) :
    CompressedTo d (d.setParent x target) where
  decreasing := by
    unfold Decreasing
    rw [parentOf_setParent]
    exact ParentForest.Decreasing.repoint decreasing smaller
  root_eq := by
    funext y
    unfold root
    rw [parentOf_setParent]
    exact ParentForest.root_repoint decreasing smaller sameTree y
  children_eq := rfl
  merges_eq := rfl

theorem root_of_parent (decreasing : d.Decreasing) {p : NodeId} (stored : d.parentOf x = some p) :
    d.root x = d.root p :=
  ParentForest.root_of_some decreasing stored

theorem root_of_top (stored : d.parentOf x = none) : d.root x = x :=
  ParentForest.root_of_none stored

/-- Path halving ends at the root and is a compression. -/
theorem findLoop_spec {fuel x : Nat} (decreasing : d.Decreasing) (enough : x < fuel) :
    (findLoop fuel d x).2 = d.root x ∧ CompressedTo d (findLoop fuel d x).1 := by
  induction fuel generalizing d x with
  | zero => omega
  | succ fuel ih =>
    cases first : d.parentOf x with
    | none => simp [findLoop, first, root_of_top first, CompressedTo.refl decreasing]
    | some p =>
      have parentBelow := decreasing first
      cases second : d.parentOf p with
      | none =>
        simp [findLoop, first, second, root_of_parent decreasing first,
          root_of_top second, CompressedTo.refl decreasing]
      | some gp =>
        have grandBelow := decreasing second
        have sameTree : d.root gp = d.root x := by
          rw [root_of_parent decreasing first, root_of_parent decreasing second]
        have halved := compressedTo_setParent decreasing (grandBelow.trans parentBelow) sameTree
        obtain ⟨found, compressed⟩ := ih (x := gp) halved.decreasing (by omega)
        simp only [findLoop, first, second]
        refine ⟨?_, halved.trans compressed⟩
        rw [found, halved.root_eq, sameTree]

theorem find_snd (decreasing : d.Decreasing) (x : NodeId) : (d.find x).2 = d.root x :=
  (findLoop_spec decreasing (Nat.lt_succ_self x)).1

theorem find_compressed (decreasing : d.Decreasing) (x : NodeId) : CompressedTo d (d.find x).1 :=
  (findLoop_spec decreasing (Nat.lt_succ_self x)).2

@[simp]
theorem findRo_snd (d : Dsu) (x : NodeId) : (d.findRo x).2 = d.root x := by
  unfold findRo
  dsimp only
  split <;> rfl

/-- The read repair fires only after a walk of at least one step, so the start
node already had a parent. -/
theorem findRo_compressed (decreasing : d.Decreasing) (x : NodeId) :
    CompressedTo d (d.findRo x).1 := by
  have idem := (isRootMap decreasing).idem x
  unfold findRo
  dsimp only
  split
  · next long =>
      have moved : d.root x ≠ x := by
        intro fixed
        have top : d.parentOf x = none := (ParentForest.root_eq_self_iff decreasing x).mp fixed
        simp [ParentForest.walk, top] at long
      exact compressedTo_setParent decreasing ((isRootMap decreasing).lt_self moved) idem
  · exact CompressedTo.refl decreasing

/-! ## Union -/

/-- Linking two roots, the smaller one on top, merges their classes. -/
theorem link_spec (decreasing : d.Decreasing) {child parent : NodeId} (smaller : parent < child)
    (childRoot : d.root child = child) (parentRoot : d.root parent = parent) :
    (d.link child parent).Decreasing ∧
      (d.link child parent).root = RootMap.link d.root child parent := by
  have childTop : d.parentOf child = none :=
    (ParentForest.root_eq_self_iff decreasing child).mp childRoot
  have parentTop : d.parentOf parent = none :=
    (ParentForest.root_eq_self_iff decreasing parent).mp parentRoot
  constructor
  · unfold Decreasing
    rw [parentOf_link]
    exact ParentForest.Decreasing.repoint decreasing smaller
  · funext x
    unfold root
    rw [parentOf_link]
    exact ParentForest.root_repoint_link decreasing smaller childTop parentTop x

/-- What a union does to the roots, and when it reports a merge. -/
structure UnionSpec (d : Dsu) (u v : NodeId) (result : Dsu × Option Merge) : Prop where
  decreasing : result.1.Decreasing
  root_eq : result.1.root = RootMap.link d.root u v
  merge_eq : result.2 =
    if d.root u = d.root v then none
    else some ⟨max (d.root u) (d.root v), min (d.root u) (d.root v)⟩

theorem union_spec (decreasing : d.Decreasing) (u v : NodeId) : UnionSpec d u v (d.union u v) := by
  have first := find_compressed decreasing u
  have second := first.trans (find_compressed first.decreasing v)
  have foundU : (d.find u).2 = d.root u := find_snd decreasing u
  have foundV : ((d.find u).1.find v).2 = d.root v := by
    rw [find_snd first.decreasing, first.root_eq]
  set d' := ((d.find u).1.find v).1 with compressedDef
  have idemU : d'.root (d.root u) = d.root u := by
    rw [second.root_eq]; exact (isRootMap decreasing).idem u
  have idemV : d'.root (d.root v) = d.root v := by
    rw [second.root_eq]; exact (isRootMap decreasing).idem v
  unfold union
  simp only [foundU, foundV, ← compressedDef]
  by_cases same : d.root u = d.root v
  · simp only [if_pos same]
    exact ⟨second.decreasing, by rw [second.root_eq, link_eq_self same], by simp [same]⟩
  · simp only [if_neg same]
    by_cases order : d.root u < d.root v
    · simp only [if_pos order]
      obtain ⟨decreasing', root'⟩ := link_spec second.decreasing order idemV idemU
      refine ⟨decreasing', ?_, ?_⟩
      · rw [second.root_eq, link_comm, link_root_root (isRootMap decreasing)] at root'
        exact root'
      · simp [same, max_eq_right order.le, min_eq_left order.le]
    · simp only [if_neg order]
      have reversed : d.root v < d.root u := lt_of_le_of_ne (not_lt.mp order) (Ne.symm same)
      obtain ⟨decreasing', root'⟩ := link_spec second.decreasing reversed idemU idemV
      refine ⟨decreasing', ?_, ?_⟩
      · rw [second.root_eq, link_root_root (isRootMap decreasing)] at root'
        exact root'
      · simp [same, max_eq_left reversed.le, min_eq_right reversed.le]

end Dsu

end Blaze
