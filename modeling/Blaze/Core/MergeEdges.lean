import Blaze.Core.Growth

/-!
# Merge edges

With member tracking on, a disjoint-set union records every link downward as well,
and compression leaves that record alone.  A point is absorbed once, so the record
leads from each root to all of its class.
-/

namespace Blaze

open RootMap

universe u

namespace Dsu

/-- All roots absorbed directly into a node. -/
def absorbed (d : Dsu) (parent : NodeId) : List NodeId :=
  (d.children.map fun kids => kids.getD parent []).getD []

/-- At most `limit` roots absorbed directly into a node. -/
def childrenOf (d : Dsu) (parent : NodeId) (limit : Nat) : List NodeId :=
  (d.absorbed parent).take limit

/-- Members are tracked.  The edges are distinct, they lead from a smaller node to a
larger one of the same class, and every node that is no root has one. -/
structure Tracks (d : Dsu) : Prop where
  tracking : d.children.isSome
  distinct : ∀ p, (d.absorbed p).Nodup
  edge : ∀ {p c}, c ∈ d.absorbed p → p < c ∧ d.root c = d.root p
  complete : ∀ c, d.root c ≠ c → ∃ p, c ∈ d.absorbed p

theorem tracks_trackingMembers : (trackingMembers true).Tracks where
  tracking := rfl
  distinct p := by simp [absorbed, trackingMembers]
  edge member := by simp [absorbed, trackingMembers] at member
  complete c moved := absurd (root_trackingMembers true c) moved

theorem absorbed_link {d : Dsu} (tracking : d.children.isSome) (child parent p : NodeId) :
    (d.link child parent).absorbed p =
      if p = parent then d.absorbed parent ++ [child] else d.absorbed p := by
  obtain ⟨kids, stored⟩ := Option.isSome_iff_exists.mp tracking
  unfold absorbed link
  simp only [stored, Option.map_some, Option.getD_some, Std.TreeMap.getD_insert, compare_eq_iff_eq]
  by_cases same : parent = p
  · simp [same]
  · simp [same, Ne.symm same]

namespace Tracks

variable {d : Dsu}

/-- The child of an edge is no root, and its parent is touched. -/
theorem touches (tracks : d.Tracks) (decreasing : d.Decreasing) {p c : NodeId}
    (member : c ∈ d.absorbed p) : d.root c ≠ c ∧ Touches d.root p := by
  obtain ⟨smaller, same⟩ := tracks.edge member
  exact (isRootMap decreasing).touches_of_lt smaller same

/-- The edges lead from the root of a class to all of it. -/
theorem reaches (tracks : d.Tracks) (c : NodeId) :
    Relation.ReflTransGen (fun a b => b ∈ d.absorbed a) (d.root c) c := by
  induction c using Nat.strong_induction_on with
  | _ c ih =>
    by_cases fixed : d.root c = c
    · rw [fixed]
    · obtain ⟨p, member⟩ := tracks.complete c fixed
      obtain ⟨smaller, same⟩ := tracks.edge member
      rw [same]
      exact (ih p smaller).tail member

theorem compressed {d' : Dsu} (tracks : d.Tracks) (compressed : CompressedTo d d') : d'.Tracks := by
  have absorbedEq : d'.absorbed = d.absorbed := by
    funext p
    rw [absorbed, absorbed, compressed.children_eq]
  refine ⟨?_, ?_, ?_, ?_⟩
  · rw [compressed.children_eq]
    exact tracks.tracking
  · rw [absorbedEq]
    exact tracks.distinct
  · rw [absorbedEq, compressed.root_eq]
    exact tracks.edge
  · rw [absorbedEq, compressed.root_eq]
    exact tracks.complete

/-- A link of two roots adds the edge of the one that is absorbed. -/
theorem link (tracks : d.Tracks) (decreasing : d.Decreasing) {child parent : NodeId}
    (smaller : parent < child) (childRoot : d.root child = child)
    (parentRoot : d.root parent = parent) : (d.link child parent).Tracks := by
  have roots := (link_spec decreasing smaller childRoot parentRoot).2
  have edges := absorbed_link tracks.tracking child parent
  refine ⟨?_, fun p => ?_, fun {p c} member => ?_, fun c moved => ?_⟩
  · exact (Option.isSome_map ..).trans tracks.tracking
  · rw [edges]
    split
    · have new : child ∉ d.absorbed parent := fun member =>
        (tracks.touches decreasing member).1 childRoot
      exact List.nodup_append'.mpr ⟨tracks.distinct parent, List.nodup_singleton child, by simpa⟩
    · exact tracks.distinct p
  · have old : c ∈ d.absorbed p →
        p < c ∧ (d.link child parent).root c = (d.link child parent).root p := by
      intro here
      obtain ⟨below, same⟩ := tracks.edge here
      rw [roots]
      exact ⟨below, link_congr same child parent⟩
    rw [edges] at member
    split at member
    · next same =>
        subst same
        rcases List.mem_append.mp member with before | added
        · exact old before
        · rw [List.mem_singleton.mp added, roots]
          exact ⟨smaller, link_left_eq_right d.root child p⟩
    · exact old member
  · by_cases fixed : d.root c = c
    · have absorbedNow : c = child := by
        by_contra other
        rw [roots, link_apply_of_ne, fixed] at moved
        · exact moved rfl
        · rw [fixed, childRoot, parentRoot, max_eq_left smaller.le]
          exact other
      refine ⟨parent, ?_⟩
      rw [edges, if_pos rfl, absorbedNow]
      simp
    · obtain ⟨p, member⟩ := tracks.complete c fixed
      refine ⟨p, ?_⟩
      rw [edges]
      split
      · next same =>
          rw [← same]
          exact List.mem_append_left _ member
      · exact member

end Tracks

/-- Whatever happens to a structure, its edges stay right. -/
theorem Grows.tracks {allowed : NodeId → Prop} {d d' : Dsu} (grows : Grows allowed d d')
    (decreasing : d.Decreasing) (tracks : d.Tracks) : d'.Tracks := by
  induction grows with
  | compressed compressed => exact tracks.compressed compressed
  | link smaller childRoot parentRoot => exact tracks.link decreasing smaller childRoot parentRoot
  | recount d merges => exact ⟨tracks.tracking, tracks.distinct, tracks.edge, tracks.complete⟩
  | trans first _ firstTracks secondTracks =>
    exact secondTracks (first.decreasing decreasing) (firstTracks decreasing tracks)

end Dsu

/-- Every structure of the memtable tracks its members. -/
structure Memtable.Tracks (mem : Memtable) : Prop where
  global : mem.global.Tracks
  overlay : ∀ s, (mem.overlay s).Tracks

theorem Memtable.tracks_new : (Memtable.new true).Tracks where
  global := Dsu.tracks_trackingMembers
  overlay s := by
    rw [Memtable.overlay_new]
    exact Dsu.tracks_trackingMembers

theorem Tier.Evolves.tracks {β : Type u} [RoutingBase β] {t t' : Tier β} (evolves : Evolves t t')
    (wellFormed : t.WellFormed) (tracks : t.mem.Tracks) : t'.mem.Tracks where
  global := evolves.global.tracks wellFormed.global tracks.global
  overlay s := (evolves.overlay s).tracks (wellFormed.overlays s) (tracks.overlay s)

end Blaze
