import Blaze.Core.MergeEdges

/-!
# Histories of a disjoint-set union

A structure starts empty, is filled by unions or from the snapshot of another one,
and compresses its paths at every lookup, including those of the query path.  Through
any mix of these its pointers go downward and lead to the least point of each class,
and the merge edges, which no lookup touches, are a tree on each class.
-/

namespace Blaze

open RootMap

variable {rounds x : Nat} {d : Dsu} {pairs : List (NodeId × NodeId)} {child parent : NodeId}

namespace Dsu

/-! ## The loops of a lookup -/

/-- Path halving that is given up after a number of rounds. -/
def findWithin : Nat → Dsu → NodeId → Option (Dsu × NodeId)
  | 0, _, _ => none
  | rounds + 1, d, x =>
      match d.parentOf x with
      | none => some (d, x)
      | some p =>
          match d.parentOf p with
          | none => some (d, p)
          | some gp => findWithin rounds (d.setParent x gp) gp

/-- The read-only lookup, given up after a number of rounds. -/
def findRoWithin (rounds : Nat) (d : Dsu) (x : NodeId) : Option (Dsu × NodeId) :=
  (ParentForest.walkWithin d.parentOf rounds x 0).map fun walked =>
    if walked.2 > roCompressDepth then (d.setParent x walked.1, walked.1) else (d, walked.1)

theorem findWithin_eq_findLoop {fuel : Nat} (decreasing : d.Decreasing) (enough : x < rounds)
    (fuelled : x < fuel) : findWithin rounds d x = some (findLoop fuel d x) := by
  induction rounds generalizing d x fuel with
  | zero => omega
  | succ rounds ih =>
    obtain ⟨fuel, rfl⟩ : ∃ n, fuel = n + 1 := ⟨fuel - 1, by omega⟩
    cases first : d.parentOf x with
    | none => simp [findWithin, findLoop, first]
    | some p =>
      have parentBelow := decreasing first
      cases second : d.parentOf p with
      | none => simp [findWithin, findLoop, first, second]
      | some gp =>
        have grandBelow := decreasing second
        have sameTree : d.root gp = d.root x := by
          rw [root_of_parent decreasing first, root_of_parent decreasing second]
        have halved := compressedTo_setParent decreasing (grandBelow.trans parentBelow) sameTree
        simp only [findWithin, findLoop, first, second]
        exact ih halved.decreasing (by omega) (by omega)

theorem findWithin_eq (decreasing : d.Decreasing) (enough : x < rounds) :
    findWithin rounds d x = some (d.find x) :=
  findWithin_eq_findLoop decreasing enough (Nat.lt_succ_self x)

theorem findRoWithin_eq (decreasing : d.Decreasing) (enough : x < rounds) :
    findRoWithin rounds d x = some (d.findRo x) := by
  rw [findRoWithin, ParentForest.walkWithin_eq decreasing enough (Nat.lt_succ_self x)]
  rfl

/-! ## Snapshots -/

/-- The resolved pairs of every node that is no root. -/
def snapshot (d : Dsu) : Dsu × List (NodeId × NodeId) :=
  d.keys.foldl (fun state k =>
    let (d, root) := state.1.find k
    (d, state.2 ++ [(k, root)])) (d, [])

theorem snapshot_snd (decreasing : d.Decreasing) :
    d.snapshot.2 = d.keys.map fun k => (k, d.root k) := by
  -- the lookups made so far have only compressed paths
  have walk : ∀ (keys : List NodeId) (state : Dsu × List (NodeId × NodeId)),
      CompressedTo d state.1 →
      (keys.foldl (fun state k =>
        let (d, root) := state.1.find k
        (d, state.2 ++ [(k, root)])) state).2 = state.2 ++ keys.map fun k => (k, d.root k) := by
    intro keys
    induction keys with
    | nil => simp
    | cons k keys ih =>
      intro state compressed
      have found := find_snd compressed.decreasing k
      have next := compressed.trans (find_compressed compressed.decreasing k)
      rw [List.foldl_cons, ih _ next]
      simp [found, compressed.root_eq]
  rw [snapshot, walk d.keys (d, []) (.refl decreasing), List.nil_append]

/-- Pairs from distinct points to smaller ones, none of which is the point of a
pair. -/
structure Flat (pairs : List (NodeId × NodeId)) : Prop where
  distinct : (pairs.map Prod.fst).Nodup
  smaller : ∀ pair ∈ pairs, pair.2 < pair.1
  settled : ∀ pair ∈ pairs, pair.2 ∉ pairs.map Prod.fst

theorem Flat.of_cons {pair : NodeId × NodeId} (flat : Flat (pair :: pairs)) : Flat pairs where
  distinct := (List.nodup_cons.mp flat.distinct).2
  smaller other member := flat.smaller other (List.mem_cons_of_mem pair member)
  settled other member key :=
    flat.settled other (List.mem_cons_of_mem pair member) (List.mem_cons_of_mem pair.1 key)

theorem flat_of_snapshot (decreasing : d.Decreasing) (taken : pairs.Subperm d.snapshot.2) :
    Flat pairs := by
  rw [snapshot_snd decreasing] at taken
  have stored : ∀ pair ∈ pairs, d.root pair.1 ≠ pair.1 ∧ pair.2 = d.root pair.1 := by
    intro pair member
    obtain ⟨k, key, rfl⟩ := List.mem_map.mp (taken.subset member)
    exact ⟨(mem_keys_iff decreasing k).mp key, rfl⟩
  refine ⟨?_, ?_, ?_⟩
  · obtain ⟨listed, perm, sublist⟩ := taken
    have keys : (d.keys.map fun k => (k, d.root k)).map Prod.fst = d.keys := by
      simp [Function.comp_def]
    have distinct : d.keys.Nodup := (keys_ascending d).imp fun order => order.ne
    have kept := sublist.map Prod.fst
    rw [keys] at kept
    exact (perm.map Prod.fst).nodup_iff.mp (distinct.sublist kept)
  · intro pair member
    obtain ⟨moved, value⟩ := stored pair member
    rw [value]
    exact (isRootMap decreasing).lt_self moved
  · intro pair member key
    obtain ⟨other, there, same⟩ := List.mem_map.mp key
    apply (stored other there).1
    rw [same, (stored pair member).2, (isRootMap decreasing).idem]

/-! ## Edges recorded once -/

/-- No node is recorded below two others. -/
def Once (d : Dsu) : Prop :=
  ∀ ⦃p q c⦄, c ∈ d.absorbed p → c ∈ d.absorbed q → p = q

theorem once_trackingMembers (track : Bool) : (trackingMembers track).Once := by
  intro p q c member
  cases track <;> simp [absorbed, trackingMembers] at member

theorem mem_absorbed_link (tracking : d.children.isSome) {p c : NodeId} :
    c ∈ (d.link child parent).absorbed p ↔ c ∈ d.absorbed p ∨ p = parent ∧ c = child := by
  rw [absorbed_link tracking]
  split
  · next same => simp [same]
  · next other => simp [other]

theorem Once.link (once : d.Once) (tracks : d.Tracks) (decreasing : d.Decreasing)
    (childRoot : d.root child = child) : (d.link child parent).Once := by
  have fresh : ∀ p, child ∉ d.absorbed p := fun p member =>
    (tracks.touches decreasing member).1 childRoot
  intro p q c inP inQ
  rw [mem_absorbed_link tracks.tracking] at inP inQ
  rcases inP with inP | ⟨rfl, rfl⟩
  · rcases inQ with inQ | ⟨-, rfl⟩
    · exact once inP inQ
    · exact absurd inP (fresh p)
  · rcases inQ with inQ | ⟨same, -⟩
    · exact absurd inQ (fresh q)
    · exact same.symm

theorem Grows.once {allowed : NodeId → Prop} {d' : Dsu} (grows : Grows allowed d d')
    (decreasing : d.Decreasing) (tracks : d.Tracks) (once : d.Once) : d'.Once := by
  induction grows with
  | compressed compressed =>
    intro p q c inP inQ
    rw [absorbed, compressed.children_eq] at inP inQ
    exact once inP inQ
  | link smaller childRoot parentRoot => exact once.link tracks decreasing childRoot
  | recount d merges => exact once
  | trans first _ firstOnce secondOnce =>
    exact secondOnce (first.decreasing decreasing) (first.tracks decreasing tracks)
      (firstOnce decreasing tracks once)

/-! ## One operation -/

/-- The graph that some pairs span. -/
def graphOf (edges : Set (NodeId × NodeId)) : SimpleGraph NodeId :=
  SimpleGraph.fromRel fun a b => (a, b) ∈ edges

/-- What a structure keeps that has joined the points of some pairs. -/
structure Keeps (track : Bool) (edges : Set (NodeId × NodeId)) (d : Dsu) : Prop where
  decreasing : d.Decreasing
  represents : Represents d.root (graphOf edges)
  tracks : track = true → d.Tracks
  once : track = true → d.Once

theorem represents_insert {f : NodeId → NodeId} {edges : Set (NodeId × NodeId)}
    (represents : Represents f (graphOf edges)) (u v : NodeId) :
    Represents (RootMap.link f u v) (graphOf (insert (u, v) edges)) := by
  have joined : (graphOf (insert (u, v) edges)).Reachable u v :=
    reachable_fromRel_iff.mpr (.rel u v (Set.mem_insert _ _))
  refine represents.link (fun x y adjacent => ?_) joined (fun x y adjacent => ?_)
  · exact ⟨adjacent.1, adjacent.2.imp (Set.mem_insert_of_mem _) (Set.mem_insert_of_mem _)⟩
  · rcases adjacent with ⟨different, (here | old) | (here | old)⟩
    · cases here
      exact Or.inr (Or.inl ⟨rfl, rfl⟩)
    · exact Or.inl ⟨different, Or.inl old⟩
    · cases here
      exact Or.inr (Or.inr ⟨rfl, rfl⟩)
    · exact Or.inl ⟨different, Or.inr old⟩

namespace Keeps

variable {track : Bool} {edges : Set (NodeId × NodeId)} {d d' : Dsu}

theorem new (track : Bool) : Keeps track ∅ (trackingMembers track) where
  decreasing := decreasing_trackingMembers track
  represents := by
    have identity : (trackingMembers track).root = fun x => x := by
      funext x
      exact root_trackingMembers track x
    have empty : graphOf ∅ = ⊥ := by
      ext x y
      simp [graphOf]
    rw [identity, empty]
    exact represents_bot
  tracks tracking := by
    rw [tracking]
    exact tracks_trackingMembers
  once _ := once_trackingMembers track

section Keeps

variable (keeps : Keeps track edges d)

include keeps

/-- A step that moves no root but those of the new edges keeps everything. -/
theorem grow {edges' : Set (NodeId × NodeId)} (grows : Grows (fun _ => True) d d')
    (represents : Represents d'.root (graphOf edges')) :
    Keeps track edges' d' where
  decreasing := grows.decreasing keeps.decreasing
  represents := represents
  tracks tracking := grows.tracks keeps.decreasing (keeps.tracks tracking)
  once tracking := grows.once keeps.decreasing (keeps.tracks tracking) (keeps.once tracking)

theorem compressed (compressed : CompressedTo d d') : Keeps track edges d' := by
  apply keeps.grow (.compressed compressed)
  rw [compressed.root_eq]
  exact keeps.represents

theorem union (u v : NodeId) : Keeps track (insert (u, v) edges) (d.union u v).1 := by
  apply keeps.grow (grows_union keeps.decreasing u v trivial trivial)
  rw [(union_spec keeps.decreasing u v).root_eq]
  exact represents_insert keeps.represents u v

theorem link (smaller : parent < child) (childRoot : d.root child = child)
    (parentRoot : d.root parent = parent) :
    Keeps track (insert (child, parent) edges) (d.link child parent) := by
  apply keeps.grow (.link smaller childRoot parentRoot trivial trivial)
  rw [(link_spec keeps.decreasing smaller childRoot parentRoot).2]
  exact represents_insert keeps.represents child parent

/-- Pairs of points that are roots are linked one after the other: the later ones stay
roots. -/
theorem foldl_link (flat : Flat pairs)
    (roots : ∀ pair ∈ pairs, d.root pair.1 = pair.1 ∧ d.root pair.2 = pair.2) :
    Keeps track (edges ∪ {pair | pair ∈ pairs})
      (pairs.foldl (fun d pair => if pair.1 ≠ pair.2 then d.link pair.1 pair.2 else d) d) := by
  induction pairs generalizing edges d with
  | nil => simpa using keeps
  | cons pair pairs ih =>
    have smaller := flat.smaller pair List.mem_cons_self
    obtain ⟨childRoot, parentRoot⟩ := roots pair List.mem_cons_self
    have next := keeps.link smaller childRoot parentRoot
    have linked := (link_spec keeps.decreasing smaller childRoot parentRoot).2
    have stays : ∀ x, d.root x = x → x ≠ pair.1 → (d.link pair.1 pair.2).root x = x := by
      intro x fixed other
      rw [linked, link_apply_of_ne, fixed]
      rw [fixed, childRoot, parentRoot, max_eq_left smaller.le]
      exact other
    have later : ∀ other ∈ pairs, (d.link pair.1 pair.2).root other.1 = other.1 ∧
        (d.link pair.1 pair.2).root other.2 = other.2 := by
      intro other member
      have before := roots other (List.mem_cons_of_mem pair member)
      refine ⟨stays other.1 before.1 ?_, stays other.2 before.2 ?_⟩
      · intro same
        apply (List.nodup_cons.mp flat.distinct).1
        rw [← same]
        exact List.mem_map_of_mem member
      · intro same
        apply flat.settled other (List.mem_cons_of_mem pair member)
        rw [same]
        exact List.mem_cons_self
    have edgesEq : edges ∪ {other | other ∈ pair :: pairs} =
        insert (pair.1, pair.2) edges ∪ {other | other ∈ pairs} := by
      ext other
      simp only [Set.mem_union, Set.mem_ofPred_eq, List.mem_cons, Set.mem_insert_iff]
      tauto
    rw [List.foldl_cons, if_pos smaller.ne', edgesEq]
    exact ih next flat.of_cons later

theorem hydrate (empty : d.parents.isEmpty) (flat : Flat pairs) :
    Keeps track (edges ∪ {pair | pair ∈ pairs}) (d.hydrate pairs) := by
  have identity : ∀ x, d.root x = x := by
    intro x
    apply root_of_top
    exact Std.TreeMap.getElem?_of_isEmpty empty
  have linked := keeps.foldl_link flat fun pair _ => ⟨identity pair.1, identity pair.2⟩
  exact linked.grow (.recount _ _) linked.represents

end Keeps

end Keeps

/-! ## Histories -/

/-- A structure that an execution leads to, with the pairs it has joined: those of its
unions and those it was loaded with.  Pairs are loaded into an empty structure, in any
order, from the snapshot of another one. -/
inductive History : Bool → Set (NodeId × NodeId) → Dsu → Prop
  | new (track : Bool) : History track ∅ (trackingMembers track)
  | union {track : Bool} {edges : Set (NodeId × NodeId)} {d : Dsu} (u v : NodeId)
      (before : History track edges d) : History track (insert (u, v) edges) (d.union u v).1
  | find {track : Bool} {edges : Set (NodeId × NodeId)} {d : Dsu} (x : NodeId)
      (before : History track edges d) : History track edges (d.find x).1
  | findRo {track : Bool} {edges : Set (NodeId × NodeId)} {d : Dsu} (x : NodeId)
      (before : History track edges d) : History track edges (d.findRo x).1
  | hydrate {track other : Bool} {edges edges' : Set (NodeId × NodeId)} {d source : Dsu}
      {pairs : List (NodeId × NodeId)} (before : History track edges d)
      (empty : d.parents.isEmpty) (another : History other edges' source)
      (taken : pairs.Subperm source.snapshot.2) :
      History track (edges ∪ {pair | pair ∈ pairs}) (d.hydrate pairs)

theorem History.keeps {track : Bool} {edges : Set (NodeId × NodeId)}
    (history : History track edges d) : Keeps track edges d := by
  induction history with
  | new track => exact .new track
  | union u v _ ih => exact ih.union u v
  | find x _ ih =>
    exact ih.compressed (find_compressed ih.decreasing x)
  | findRo x _ ih =>
    exact ih.compressed (findRo_compressed ih.decreasing x)
  | hydrate _ empty _ taken keeps sourceKeeps =>
    exact keeps.hydrate empty (flat_of_snapshot sourceKeeps.decreasing taken)

/-- The class of a point under the equivalence that some pairs generate. -/
def classOf (edges : Set (NodeId × NodeId)) (x : NodeId) : Set NodeId :=
  {y | Relation.EqvGen (fun a b => (a, b) ∈ edges) x y}

/-- The recorded children are a tree on each class: its least point is recorded below
no other, every other point once below one of the class, and all of them are reached
from the least one. -/
structure MergeTrees (edges : Set (NodeId × NodeId)) (d : Dsu) : Prop where
  inside : ∀ p, ∀ c ∈ d.absorbed p, c ∈ classOf edges p
  top : ∀ x m, IsLeast (classOf edges x) m → ∀ p, m ∉ d.absorbed p
  once : ∀ x m, IsLeast (classOf edges x) m → ∀ c ∈ classOf edges x, c ≠ m →
    ∃ p, (d.absorbed p).count c = 1 ∧ ∀ q, q ≠ p → c ∉ d.absorbed q
  reached : ∀ x m, IsLeast (classOf edges x) m →
    Relation.ReflTransGen (fun a b => b ∈ d.absorbed a) m x

namespace Keeps

variable {track : Bool} {edges : Set (NodeId × NodeId)} {d : Dsu}

theorem isLeast (keeps : Keeps track edges d) (x : NodeId) :
    IsLeast (classOf edges x) (d.root x) := by
  have classEq : classOf edges x = {y | (graphOf edges).Reachable x y} := by
    ext y
    exact reachable_fromRel_iff.symm
  rw [classEq]
  exact keeps.represents.isLeast x

theorem mem_classOf_iff (keeps : Keeps track edges d) (x y : NodeId) :
    y ∈ classOf edges x ↔ d.root x = d.root y :=
  reachable_fromRel_iff.symm.trans (keeps.represents.eq_iff_reachable x y).symm

theorem mergeTrees (keeps : Keeps track edges d) (tracking : track = true) :
    MergeTrees edges d := by
  have tracks := keeps.tracks tracking
  have least : ∀ x m, IsLeast (classOf edges x) m → m = d.root x := fun x m isLeast =>
    isLeast.unique (keeps.isLeast x)
  refine ⟨?_, ?_, ?_, ?_⟩
  · intro p c member
    exact (keeps.mem_classOf_iff p c).mpr (tracks.edge member).2.symm
  · intro x m isLeast p member
    apply (tracks.touches keeps.decreasing member).1
    rw [least x m isLeast, (isRootMap keeps.decreasing).idem]
  · intro x m isLeast c inClass other
    have moved : d.root c ≠ c := by
      rw [← (keeps.mem_classOf_iff x c).mp inClass, ← least x m isLeast]
      exact Ne.symm other
    obtain ⟨p, member⟩ := tracks.complete c moved
    refine ⟨p, List.count_eq_one_of_mem (tracks.distinct p) member, fun q different there => ?_⟩
    exact different (keeps.once tracking there member)
  · intro x m isLeast
    rw [least x m isLeast]
    exact tracks.reaches x

end Keeps

end Dsu

/-- Whatever operations a structure has gone through, its parents are smaller than their
children and both lookups end by themselves, with the least point of the class that the
unions and the loaded pairs generate; and with member tracking on, the recorded children
are a tree on each class. -/
theorem dsu_history_keeps_classes {track : Bool} {edges : Set (NodeId × NodeId)} {d : Dsu}
    (history : Dsu.History track edges d) :
    (∀ x p, d.parentOf x = some p → p < x) ∧
      (∀ x rounds, x < rounds → Dsu.findWithin rounds d x = some (d.find x) ∧
        Dsu.findRoWithin rounds d x = some (d.findRo x)) ∧
      (∀ x, IsLeast (Dsu.classOf edges x) (d.find x).2 ∧
        IsLeast (Dsu.classOf edges x) (d.findRo x).2) ∧
      (track = true → Dsu.MergeTrees edges d) := by
  have keeps := history.keeps
  refine ⟨?_, ?_, ?_, keeps.mergeTrees⟩
  · intro x p stored
    exact keeps.decreasing stored
  · intro x rounds enough
    exact ⟨Dsu.findWithin_eq keeps.decreasing enough, Dsu.findRoWithin_eq keeps.decreasing enough⟩
  · intro x
    rw [Dsu.find_snd keeps.decreasing, Dsu.findRo_snd]
    exact ⟨keeps.isLeast x, keeps.isLeast x⟩

/-- A tracking structure loaded from one that does not track, and joined to another
point: the loaded points are children of their root, and so is the new one. -/
theorem dsu_history_keeps_classes_loaded :
    let source := (((Dsu.new.union 5 3).1.union 3 1).1.find 5).1
    let d := (((Dsu.trackingMembers true).hydrate source.snapshot.2).union 9 5).1
    d.absorbed 1 = [3, 5, 9] ∧ (d.findRo 9).2 = 1 ∧
      Dsu.MergeTrees ({(9, 5)} ∪ {pair | pair ∈ source.snapshot.2}) d := by
  intro source d
  have sourceHistory : Dsu.History false _ source := .find 5 (.union 3 1 (.union 5 3 (.new false)))
  have history : Dsu.History true _ d :=
    .union 9 5 (.hydrate (.new true) rfl sourceHistory (List.Subperm.refl _))
  have spec := (dsu_history_keeps_classes history).2.2.2 rfl
  rw [Set.empty_union, Set.insert_eq] at spec
  exact ⟨by decide +kernel, by decide +kernel, spec⟩

end Blaze
