import Mathlib.Combinatorics.SimpleGraph.Connectivity.Connected

/-!
# Root maps

A root map sends every point of a linear order to a representative at or below
it and fixes its representatives.  It is what a union-find structure that keeps
the lowest element of each class computes, whatever the shape of its parent
pointers.

The file develops three things: linking two classes, stacking root maps so that
a newer map refines an older one, and reading a root map as the connected
components of a graph.
-/

namespace RootMap

open List

universe u

variable {α : Type u} [LinearOrder α]

/-- Every point goes to a representative at or below it, and representatives
stay where they are. -/
structure IsRootMap (f : α → α) : Prop where
  le_self : ∀ x, f x ≤ x
  idem : ∀ x, f (f x) = f x

theorem isRootMap_id : IsRootMap (fun x : α => x) :=
  ⟨fun _ => le_rfl, fun _ => rfl⟩

theorem IsRootMap.lt_self {f : α → α} (root : IsRootMap f) {x : α} (moved : f x ≠ x) : f x < x :=
  lt_of_le_of_ne (root.le_self x) moved

/-- A point is touched by `f` when it is moved, or when another point is moved
onto it. -/
def Touches (f : α → α) (x : α) : Prop :=
  f x ≠ x ∨ ∃ y, y ≠ x ∧ f y = x

omit [LinearOrder α] in
theorem touches_of_moved {f : α → α} {x : α} (moved : f x ≠ x) : Touches f x :=
  Or.inl moved

omit [LinearOrder α] in
theorem touches_root_of_moved {f : α → α} {x : α} (moved : f x ≠ x) : Touches f (f x) :=
  Or.inr ⟨x, Ne.symm moved, rfl⟩

omit [LinearOrder α] in
/-- The touched points are the moved points and the points they are moved to. -/
theorem exists_touches_iff {f : α → α} {P : α → Prop} :
    (∃ x, Touches f x ∧ P x) ↔ ∃ k, f k ≠ k ∧ (P k ∨ P (f k)) := by
  constructor
  · rintro ⟨x, moved | ⟨y, different, rfl⟩, holds⟩
    · exact ⟨x, moved, Or.inl holds⟩
    · exact ⟨y, Ne.symm different, Or.inr holds⟩
  · rintro ⟨k, moved, left | right⟩
    · exact ⟨k, touches_of_moved moved, left⟩
    · exact ⟨f k, touches_root_of_moved moved, right⟩

/-- Two points of one class are touched; the larger one is moved. -/
theorem IsRootMap.touches_of_lt {f : α → α} (root : IsRootMap f) {p c : α} (smaller : p < c)
    (same : f c = f p) : f c ≠ c ∧ Touches f p := by
  refine ⟨?_, ?_⟩
  · rw [same]
    exact ((root.le_self p).trans_lt smaller).ne
  · by_cases fixed : f p = p
    · exact Or.inr ⟨c, smaller.ne', same.trans fixed⟩
    · exact touches_of_moved fixed

omit [LinearOrder α] in
/-- An untouched point is alone in its class. -/
theorem eq_of_root_eq_of_not_touches {f : α → α} {x y : α}
    (untouched : ¬ Touches f x) (same : f y = f x) : y = x := by
  have fixed : f x = x := by
    by_contra moved
    exact untouched (touches_of_moved moved)
  by_contra different
  exact untouched (Or.inr ⟨y, different, same.trans fixed⟩)

/-! ## Linking two classes -/

/-- Join the classes of `a` and `b`; the lower of the two representatives
survives. -/
def link (f : α → α) (a b : α) : α → α := fun x =>
  if f x = max (f a) (f b) then min (f a) (f b) else f x

theorem link_apply_of_ne {f : α → α} {a b x : α} (other : f x ≠ max (f a) (f b)) :
    link f a b x = f x := by
  simp [link, other]

theorem link_apply_of_eq {f : α → α} {a b x : α} (absorbed : f x = max (f a) (f b)) :
    link f a b x = min (f a) (f b) := by
  simp [link, absorbed]

theorem link_comm (f : α → α) (a b : α) : link f a b = link f b a := by
  funext x
  simp only [link, max_comm (f a), min_comm (f a)]

theorem link_eq_self {f : α → α} {a b : α} (same : f a = f b) : link f a b = f := by
  funext x
  by_cases absorbed : f x = f b <;> simp [link, same, absorbed]

/-- A link only ever moves a point further down. -/
theorem link_le (f : α → α) (a b x : α) : link f a b x ≤ f x := by
  by_cases absorbed : f x = max (f a) (f b)
  · rw [link_apply_of_eq absorbed, absorbed]
    exact min_le_max
  · rw [link_apply_of_ne absorbed]

/-- Linking depends only on the classes of its operands. -/
theorem link_root_root {f : α → α} (root : IsRootMap f) (a b : α) :
    link f (f a) (f b) = link f a b := by
  funext x
  simp [link, root.idem]

theorem link_congr {f : α → α} {x y : α} (same : f x = f y) (a b : α) :
    link f a b x = link f a b y := by
  simp [link, same]

theorem link_left_eq_right (f : α → α) (a b : α) : link f a b a = link f a b b := by
  rcases le_total (f a) (f b) with order | order
  · by_cases same : f a = f b
    · exact link_congr same a b
    · simp [link, max_eq_right order, min_eq_left order, same]
  · by_cases same : f b = f a
    · exact link_congr same.symm a b
    · simp [link, max_eq_left order, min_eq_right order, same]

theorem IsRootMap.link {f : α → α} (root : IsRootMap f) (a b : α) : IsRootMap (link f a b) := by
  refine ⟨fun x => ?_, fun x => ?_⟩
  · by_cases absorbed : f x = max (f a) (f b)
    · rw [link_apply_of_eq absorbed]
      exact (min_le_max.trans absorbed.ge).trans (root.le_self x)
    · rw [link_apply_of_ne absorbed]
      exact root.le_self x
  · by_cases absorbed : f x = max (f a) (f b)
    · rw [link_apply_of_eq absorbed]
      have fixed : f (min (f a) (f b)) = min (f a) (f b) := by
        rcases min_choice (f a) (f b) with low | low <;> rw [low, root.idem]
      by_cases same : f a = f b
      · simp [RootMap.link, same, root.idem]
      · have apart : f (min (f a) (f b)) ≠ max (f a) (f b) := by
          rw [fixed]
          exact ne_of_lt (min_lt_max.mpr same)
        rw [link_apply_of_ne apart, fixed]
    · rw [link_apply_of_ne absorbed, link_apply_of_ne (by rwa [root.idem]), root.idem]

/-- A link touches nothing new but the two representatives it joins. -/
theorem touches_link {f : α → α} {a b x : α} (touched : Touches (link f a b) x) :
    Touches f x ∨ x = f a ∨ x = f b := by
  rcases touched with moved | ⟨y, different, landed⟩
  · by_cases absorbed : f x = max (f a) (f b)
    · by_cases fixed : f x = x
      · rw [fixed] at absorbed
        rcases max_choice (f a) (f b) with high | high
        · exact Or.inr (Or.inl (absorbed.trans high))
        · exact Or.inr (Or.inr (absorbed.trans high))
      · exact Or.inl (touches_of_moved fixed)
    · rw [link_apply_of_ne absorbed] at moved
      exact Or.inl (touches_of_moved moved)
  · by_cases absorbed : f y = max (f a) (f b)
    · rw [link_apply_of_eq absorbed] at landed
      rcases min_choice (f a) (f b) with low | low
      · exact Or.inr (Or.inl (landed.symm.trans low))
      · exact Or.inr (Or.inr (landed.symm.trans low))
    · rw [link_apply_of_ne absorbed] at landed
      exact Or.inl (Or.inr ⟨y, different, landed⟩)

/-! ## Stacks -/

/-- `above` moves only points that `below` leaves alone, and only onto such
points. -/
def Over (above below : α → α) : Prop :=
  ∀ x, above x ≠ x → below x = x ∧ below (above x) = above x

/-- Apply a stack of maps, oldest first. -/
def stackRoot (fs : List (α → α)) (x : α) : α :=
  fs.foldl (fun y f => f y) x

omit [LinearOrder α] in
@[simp]
theorem stackRoot_nil (x : α) : stackRoot [] x = x :=
  rfl

omit [LinearOrder α] in
@[simp]
theorem stackRoot_cons (f : α → α) (fs : List (α → α)) (x : α) :
    stackRoot (f :: fs) x = stackRoot fs (f x) :=
  rfl

omit [LinearOrder α] in
theorem stackRoot_append (fs gs : List (α → α)) (x : α) :
    stackRoot (fs ++ gs) x = stackRoot gs (stackRoot fs x) := by
  simp [stackRoot, foldl_append]

/-- Every map of the stack is a root map, and each lies over all older ones. -/
structure Layered (fs : List (α → α)) : Prop where
  rootMap : ∀ f ∈ fs, IsRootMap f
  atop : fs.Pairwise fun below above => Over above below

theorem layered_nil : Layered ([] : List (α → α)) :=
  ⟨by simp, List.Pairwise.nil⟩

theorem layered_singleton {f : α → α} (rootMap : IsRootMap f) : Layered [f] :=
  ⟨by simpa using rootMap, pairwise_singleton _ f⟩

theorem Layered.tail {f : α → α} {fs : List (α → α)} (layered : Layered (f :: fs)) : Layered fs :=
  ⟨fun g member => layered.rootMap g (mem_cons_of_mem f member),
    (pairwise_cons.mp layered.atop).2⟩

theorem Layered.of_append_left {fs gs : List (α → α)} (layered : Layered (fs ++ gs)) : Layered fs :=
  ⟨fun f member => layered.rootMap f (mem_append_left gs member),
    (pairwise_append.mp layered.atop).1⟩

theorem Layered.of_append_right {fs gs : List (α → α)} (layered : Layered (fs ++ gs)) :
    Layered gs :=
  ⟨fun f member => layered.rootMap f (mem_append_right fs member),
    (pairwise_append.mp layered.atop).2.1⟩

theorem stackRoot_le {fs : List (α → α)} (rootMap : ∀ f ∈ fs, IsRootMap f) (x : α) :
    stackRoot fs x ≤ x := by
  induction fs generalizing x with
  | nil => exact le_rfl
  | cons f fs ih =>
    rw [stackRoot_cons]
    have lower := ih (fun g member => rootMap g (mem_cons_of_mem f member)) (f x)
    exact lower.trans ((rootMap f mem_cons_self).le_self x)

/-- A stack fixes exactly the points that each of its maps fixes. -/
theorem stackRoot_eq_self_iff {fs : List (α → α)} (rootMap : ∀ f ∈ fs, IsRootMap f)
    (x : α) : stackRoot fs x = x ↔ ∀ f ∈ fs, f x = x := by
  induction fs with
  | nil => simp
  | cons f fs ih =>
    have rest : ∀ g ∈ fs, IsRootMap g := fun g member =>
      rootMap g (mem_cons_of_mem f member)
    rw [stackRoot_cons]
    constructor
    · intro fixed
      have head : f x = x := by
        by_contra moved
        have below : f x < x := (rootMap f mem_cons_self).lt_self moved
        exact absurd fixed (ne_of_lt ((stackRoot_le rest (f x)).trans_lt below))
      rw [head] at fixed
      intro g member
      rcases mem_cons.mp member with rfl | member
      · exact head
      · exact (ih rest).mp fixed g member
    · intro fixed
      rw [fixed f mem_cons_self]
      exact (ih rest).mpr fun g member => fixed g (mem_cons_of_mem f member)

/-- A map over every layer of a stack does not disturb what the stack has
settled. -/
theorem stackRoot_fixed_of_over {b : α → α} {fs : List (α → α)}
    (atop : ∀ f ∈ fs, Over f b) {x : α} (fixed : b x = x) :
    b (stackRoot fs x) = stackRoot fs x := by
  induction fs generalizing x with
  | nil => exact fixed
  | cons f fs ih =>
    rw [stackRoot_cons]
    refine ih (fun g member => atop g (mem_cons_of_mem f member)) ?_
    by_cases moved : f x = x
    · rw [moved, fixed]
    · exact (atop f mem_cons_self x moved).2

/-- What a layered stack returns is a fixed point of all its layers. -/
theorem Layered.fixes {fs : List (α → α)} (layered : Layered fs) (x : α) :
    ∀ f ∈ fs, f (stackRoot fs x) = stackRoot fs x := by
  induction fs generalizing x with
  | nil => simp
  | cons f fs ih =>
    intro g member
    rw [stackRoot_cons]
    rcases mem_cons.mp member with rfl | member
    · exact stackRoot_fixed_of_over (pairwise_cons.mp layered.atop).1
        ((layered.rootMap g mem_cons_self).idem x)
    · exact ih layered.tail (f x) g member

theorem Layered.isRootMap {fs : List (α → α)} (layered : Layered fs) : IsRootMap (stackRoot fs) :=
  ⟨stackRoot_le layered.rootMap,
    fun x => (stackRoot_eq_self_iff layered.rootMap _).mpr (layered.fixes x)⟩

/-- Going through one of the layers first does not change where a stack
ends. -/
theorem Layered.stackRoot_layer {fs : List (α → α)} (layered : Layered fs) {f : α → α}
    (member : f ∈ fs) (x : α) : stackRoot fs (f x) = stackRoot fs x := by
  induction fs with
  | nil => cases member
  | cons g fs ih =>
    rw [stackRoot_cons, stackRoot_cons]
    rcases mem_cons.mp member with rfl | later
    · rw [(layered.rootMap f mem_cons_self).idem]
    · by_cases moved : f x = x
      · rw [moved]
      · obtain ⟨fixed, fixedRoot⟩ := (pairwise_cons.mp layered.atop).1 f later x moved
        rw [fixed, fixedRoot]
        exact ih layered.tail later

omit [LinearOrder α] in
/-- Where a stack moves a point to is where one of its layers moved a point. -/
theorem exists_layer_of_moved {fs : List (α → α)} {x : α} (moved : stackRoot fs x ≠ x) :
    ∃ f ∈ fs, ∃ y, f y ≠ y ∧ f y = stackRoot fs x := by
  induction fs generalizing x with
  | nil => exact absurd rfl moved
  | cons f fs ih =>
    rw [stackRoot_cons] at moved ⊢
    by_cases settled : stackRoot fs (f x) = f x
    · rw [settled] at moved
      exact ⟨f, mem_cons_self, x, moved, settled.symm⟩
    · obtain ⟨g, member, y, movedThere, same⟩ := ih settled
      exact ⟨g, mem_cons_of_mem f member, y, movedThere, same⟩

/-- A layered stack touches what its layers touch. -/
theorem Layered.touches_stackRoot_iff {fs : List (α → α)} (layered : Layered fs) (x : α) :
    Touches (stackRoot fs) x ↔ ∃ f ∈ fs, Touches f x := by
  have fixedIff := stackRoot_eq_self_iff layered.rootMap
  constructor
  · rintro (moved | ⟨y, different, rfl⟩)
    · rw [ne_eq, fixedIff] at moved
      push Not at moved
      obtain ⟨f, member, movedHere⟩ := moved
      exact ⟨f, member, touches_of_moved movedHere⟩
    · obtain ⟨f, member, z, movedHere, same⟩ := exists_layer_of_moved (Ne.symm different)
      rw [← same]
      exact ⟨f, member, touches_root_of_moved movedHere⟩
  · rintro ⟨f, member, moved | ⟨y, different, rfl⟩⟩
    · exact touches_of_moved fun fixed => moved ((fixedIff x).mp fixed f member)
    · by_cases settled : stackRoot fs (f y) = f y
      · exact Or.inr ⟨y, different, (layered.stackRoot_layer member y).symm.trans settled⟩
      · exact touches_of_moved settled

/-- What a stack fixes, any selection of its layers fixes. -/
theorem stackRoot_fixed_of_subset {fs gs : List (α → α)} (rootMap : ∀ f ∈ gs, IsRootMap f)
    (subset : fs ⊆ gs) {x : α} (fixed : stackRoot gs x = x) : stackRoot fs x = x := by
  apply (stackRoot_eq_self_iff (fun f member => rootMap f (subset member)) x).mpr
  intro f member
  exact (stackRoot_eq_self_iff rootMap x).mp fixed f (subset member)

/-- Resolving a point again from the middle of a stack ends where resolving it
once does. -/
theorem Layered.stackRoot_resume {older below : List (α → α)}
    (layered : Layered (older ++ below)) (above : List (α → α)) (x : α) :
    stackRoot (below ++ above) (stackRoot (older ++ below) x) =
      stackRoot (older ++ (below ++ above)) x := by
  have settled : stackRoot below (stackRoot (older ++ below) x) = stackRoot (older ++ below) x :=
    stackRoot_fixed_of_subset layered.rootMap (subset_append_right older below)
      (layered.isRootMap.idem x)
  rw [stackRoot_append below, settled, ← append_assoc, stackRoot_append (older ++ below)]

theorem over_stackRoot {above : α → α} {fs : List (α → α)}
    (rootMap : ∀ f ∈ fs, IsRootMap f) (atop : ∀ f ∈ fs, Over above f) :
    Over above (stackRoot fs) := fun x moved =>
  ⟨(stackRoot_eq_self_iff rootMap x).mpr fun f member => (atop f member x moved).1,
    (stackRoot_eq_self_iff rootMap _).mpr fun f member => (atop f member x moved).2⟩

theorem over_of_over_stackRoot {above : α → α} {fs : List (α → α)}
    (rootMap : ∀ f ∈ fs, IsRootMap f) (atop : Over above (stackRoot fs)) :
    ∀ f ∈ fs, Over above f := fun f member x moved =>
  ⟨(stackRoot_eq_self_iff rootMap x).mp (atop x moved).1 f member,
    (stackRoot_eq_self_iff rootMap _).mp (atop x moved).2 f member⟩

/-- The newest map of a stack lies over what the others compute. -/
theorem Layered.over_newest {fs : List (α → α)} {f : α → α} (layered : Layered (fs ++ [f])) :
    Over f (stackRoot fs) := by
  apply over_stackRoot layered.of_append_left.rootMap
  intro below member
  exact (pairwise_append.mp layered.atop).2.2 below member f (mem_singleton_self f)

/-- A map that lies over what a stack computes may be put on top of it. -/
theorem Layered.push {fs : List (α → α)} (layered : Layered fs) {f : α → α}
    (rootMap : IsRootMap f) (atop : Over f (stackRoot fs)) : Layered (fs ++ [f]) := by
  refine ⟨fun g member => ?_, pairwise_append.mpr
    ⟨layered.atop, pairwise_singleton _ f, fun below belowMember above aboveMember => ?_⟩⟩
  · rcases mem_append.mp member with member | member
    · exact layered.rootMap g member
    · rw [mem_singleton.mp member]
      exact rootMap
  · rw [mem_singleton.mp aboveMember]
    exact over_of_over_stackRoot layered.rootMap atop below belowMember

/-- A whole stack lies over what each of its layers lies over. -/
theorem stackRoot_over {below : α → α} {fs : List (α → α)}
    (atop : ∀ f ∈ fs, Over f below) : Over (stackRoot fs) below := by
  intro x moved
  have fixed : below x = x := by
    induction fs with
    | nil => exact absurd rfl moved
    | cons f fs ih =>
      by_cases head : f x = x
      · rw [stackRoot_cons, head] at moved
        exact ih (fun g member => atop g (mem_cons_of_mem f member)) moved
      · exact (atop f mem_cons_self x head).1
  exact ⟨fixed, stackRoot_fixed_of_over atop fixed⟩

/-- A contiguous slice may be replaced by the single map it computes. -/
theorem Layered.splice {older slice newer : List (α → α)}
    (layered : Layered (older ++ slice ++ newer)) :
    Layered (older ++ stackRoot slice :: newer) := by
  have sliceLayered : Layered slice := layered.of_append_left.of_append_right
  obtain ⟨olderSlice, newerOver, across⟩ := pairwise_append.mp layered.atop
  obtain ⟨olderOver, -, sliceAcross⟩ := pairwise_append.mp olderSlice
  refine ⟨?_, pairwise_append.mpr ⟨olderOver, pairwise_cons.mpr ⟨?_, newerOver⟩, ?_⟩⟩
  · intro f member
    rcases mem_append.mp member with member | member
    · exact layered.rootMap f (mem_append_left _ (mem_append_left _ member))
    · rcases mem_cons.mp member with rfl | member
      · exact sliceLayered.isRootMap
      · exact layered.rootMap f (mem_append_right _ member)
  · intro above member
    exact over_stackRoot sliceLayered.rootMap fun f sliceMember =>
      across f (mem_append_right _ sliceMember) above member
  · intro below belowMember above aboveMember
    rcases mem_cons.mp aboveMember with rfl | aboveMember
    · exact stackRoot_over fun f sliceMember => sliceAcross below belowMember f sliceMember
    · exact across below (mem_append_left _ belowMember) above aboveMember

omit [LinearOrder α] in
/-- Replacing a slice by the map it computes changes no answer. -/
theorem stackRoot_splice (older slice newer : List (α → α)) (x : α) :
    stackRoot (older ++ stackRoot slice :: newer) x =
      stackRoot (older ++ slice ++ newer) x := by
  simp only [stackRoot_append, stackRoot_cons]

/-! ## Two levels -/

omit [LinearOrder α] in
theorem Over.fixes_touched {above below : α → α} (atop : Over above below) {x : α}
    (touched : Touches above x) : below x = x := by
  rcases touched with moved | ⟨y, different, hit⟩
  · exact (atop x moved).1
  · have moved : above y ≠ y := by
      rw [hit]
      exact different.symm
    rw [← hit]
    exact (atop y moved).2

theorem Over.fixed {above below : α → α} (atop : Over above below)
    (belowRoot : IsRootMap below) (x : α) : below (above (below x)) = above (below x) := by
  by_cases moved : above (below x) = below x
  · rw [moved, belowRoot.idem]
  · exact (atop (below x) moved).2

/-- Composing a root map with one that lies over it gives a root map. -/
theorem Over.isRootMap_comp {above below : α → α} (atop : Over above below)
    (belowRoot : IsRootMap below) (aboveRoot : IsRootMap above) :
    IsRootMap fun x => above (below x) where
  le_self x := (aboveRoot.le_self _).trans (belowRoot.le_self x)
  idem x := by
    rw [atop.fixed belowRoot, aboveRoot.idem]

/-- The composition moves what either level moves. -/
theorem Over.comp_eq_self_iff {above below : α → α} (belowRoot : IsRootMap below)
    (aboveRoot : IsRootMap above) (x : α) :
    above (below x) = x ↔ below x = x ∧ above x = x := by
  constructor
  · intro fixed
    have low : x ≤ below x := by
      conv_lhs => rw [← fixed]
      exact aboveRoot.le_self _
    have belowFixed := le_antisymm (belowRoot.le_self x) low
    rw [belowFixed] at fixed
    exact ⟨belowFixed, fixed⟩
  · rintro ⟨belowFixed, aboveFixed⟩
    rw [belowFixed, aboveFixed]

/-- Linking two points that both levels fix keeps the upper map over the
lower. -/
theorem Over.link {above below : α → α} (atop : Over above below) {a b : α}
    (belowLeft : below a = a) (belowRight : below b = b) (aboveLeft : above a = a)
    (aboveRight : above b = b) : Over (link above a b) below := by
  have ends : ∀ y, y = a ∨ y = b → below y = y := by
    rintro y (rfl | rfl) <;> assumption
  intro x moved
  by_cases absorbed : above x = max (above a) (above b)
  · rw [link_apply_of_eq absorbed, aboveLeft, aboveRight] at *
    refine ⟨?_, ends _ (min_choice a b)⟩
    by_cases fixed : above x = x
    · rw [fixed] at absorbed
      rw [absorbed]
      exact ends _ (max_choice a b)
    · exact (atop x fixed).1
  · rw [link_apply_of_ne absorbed] at *
    exact atop x moved

/-- Linking composed roots in the upper level links the composition. -/
theorem link_comp {above below : α → α} (aboveRoot : IsRootMap above) (u v x : α) :
    RootMap.link above (above (below u)) (above (below v)) (below x) =
      RootMap.link (fun y => above (below y)) u v x := by
  simp only [RootMap.link, aboveRoot.idem]

/-! ## Connected components -/

/-- `f` computes the connected components of `G`. -/
structure Represents (f : α → α) (G : SimpleGraph α) : Prop where
  rootMap : IsRootMap f
  sound : ∀ x, G.Reachable x (f x)
  complete : ∀ ⦃x y⦄, G.Adj x y → f x = f y

omit [LinearOrder α] in
/-- A function constant along edges is constant on components. -/
theorem eq_of_reachable {β : Type*} {f : α → β} {G : SimpleGraph α}
    (constant : ∀ ⦃x y⦄, G.Adj x y → f x = f y) {x y : α} (path : G.Reachable x y) :
    f x = f y := by
  rw [SimpleGraph.reachable_iff_reflTransGen] at path
  induction path with
  | refl => rfl
  | tail _ step ih => exact ih.trans (constant step)

theorem Represents.eq_iff_reachable {f : α → α} {G : SimpleGraph α}
    (represents : Represents f G) (x y : α) : f x = f y ↔ G.Reachable x y := by
  constructor
  · intro same
    have back : G.Reachable (f x) y := by
      rw [same]
      exact (represents.sound y).symm
    exact (represents.sound x).trans back
  · exact eq_of_reachable represents.complete

/-- The representative is the least element of its component. -/
theorem Represents.isLeast {f : α → α} {G : SimpleGraph α}
    (represents : Represents f G) (x : α) : IsLeast {y | G.Reachable x y} (f x) := by
  refine ⟨represents.sound x, fun y path => ?_⟩
  rw [eq_of_reachable represents.complete path]
  exact represents.rootMap.le_self y

theorem represents_bot : Represents (fun x : α => x) (⊥ : SimpleGraph α) :=
  ⟨isRootMap_id, fun _ => SimpleGraph.Reachable.rfl, by simp⟩

/-- A link along a path of `G` never leaves a component of `G`. -/
theorem reachable_link {f : α → α} {G : SimpleGraph α} (sound : ∀ x, G.Reachable x (f x))
    {a b : α} (joined : G.Reachable a b) (x : α) : G.Reachable x (link f a b x) := by
  by_cases absorbed : f x = max (f a) (f b)
  · rw [link_apply_of_eq absorbed]
    have roots : G.Reachable (f a) (f b) := (sound a).symm.trans (joined.trans (sound b))
    refine (sound x).trans ?_
    rw [absorbed]
    rcases le_total (f a) (f b) with order | order
    · rw [max_eq_right order, min_eq_left order]
      exact roots.symm
    · rw [max_eq_left order, min_eq_right order]
      exact roots
  · rw [link_apply_of_ne absorbed]
    exact sound x

/-- Linking the endpoints of a new edge keeps the components right. -/
theorem Represents.link {f : α → α} {G G' : SimpleGraph α} (represents : Represents f G)
    {u v : α} (grows : G ≤ G') (joined : G'.Reachable u v)
    (edges : ∀ ⦃x y⦄, G'.Adj x y → G.Adj x y ∨ x = u ∧ y = v ∨ x = v ∧ y = u) :
    Represents (link f u v) G' := by
  refine ⟨represents.rootMap.link u v,
    reachable_link (fun x => (represents.sound x).mono grows) joined,
    fun x y adjacent => ?_⟩
  rcases edges adjacent with old | ⟨rfl, rfl⟩ | ⟨rfl, rfl⟩
  · exact link_congr (represents.complete old) u v
  · exact link_left_eq_right f x y
  · exact (link_left_eq_right f y x).symm

omit [LinearOrder α] in
/-- The components of the graph of a relation are the classes that it generates. -/
theorem reachable_fromRel_iff {r : α → α → Prop} {x y : α} :
    (SimpleGraph.fromRel r).Reachable x y ↔ Relation.EqvGen r x y := by
  constructor
  · intro path
    rw [SimpleGraph.reachable_iff_reflTransGen] at path
    induction path with
    | refl => exact .refl x
    | tail _ step ih =>
      rcases step.2 with forward | backward
      · exact .trans _ _ _ ih (.rel _ _ forward)
      · exact .trans _ _ _ ih (.symm _ _ (.rel _ _ backward))
  · intro same
    induction same with
    | rel a b related =>
      by_cases equal : a = b
      · rw [equal]
      · exact SimpleGraph.Adj.reachable ⟨equal, Or.inl related⟩
    | refl a => exact .rfl
    | symm a b _ ih => exact ih.symm
    | trans a b c _ _ first second => exact first.trans second

end RootMap
