import Blaze.Storage.MemberIndex

/-!
# What the walk of a component finds

In both tiers the children that a walk fetches are the first of a list without
repeats, they lie in the class of their parent, and they lead from the root of a
class to all of it.  The capped walk then lists a component.
-/

namespace Blaze

open List RootMap PairTable LayeredBase CappedWalk

variable {pairs : List (NodeId × NodeId)} {parent child node : NodeId} {layers : List PuffinBase}
  {written : Written} {cap : Nat} {f : ScopedForest LayeredBase}
  {fetch : PuffinBase → Nat → List NodeId} {kids : PuffinBase → List NodeId} {scope : ScopeId}
  {answer : Members}

/-! ## One table -/

/-- The children of a node in the member table of some pairs. -/
def tableChildren (pairs : List (NodeId × NodeId)) (parent : NodeId) : List NodeId :=
  childrenIn (invertPairs pairs) parent

theorem tableChildren_perm (pairs : List (NodeId × NodeId)) (parent : NodeId) :
    (tableChildren pairs parent).Perm
      ((pairs.filter fun pair => pair.2 = parent ∧ pair.1 ≠ pair.2).map Prod.fst) := by
  have sorted := perm_insertionSort (· ≤ ·)
    ((pairs.filter fun pair => pair.1 ≠ pair.2).map fun pair =>
      (toLex (pair.2, pair.1) : NodeId ×ₗ NodeId))
  have filtered := (sorted.filter fun pair => (ofLex pair).1 = parent).map fun pair =>
    (ofLex pair).2
  rw [filter_map, filter_filter, map_map] at filtered
  simp only [Function.comp_def, ofLex_toLex] at filtered
  simp only [Bool.decide_and]
  exact filtered

theorem mem_tableChildren (resolved : Resolved pairs) :
    child ∈ tableChildren pairs parent ↔ (child, parent) ∈ pairs := by
  rw [(tableChildren_perm pairs parent).mem_iff]
  constructor
  · intro member
    obtain ⟨pair, kept, rfl⟩ := mem_map.mp member
    obtain ⟨inTable, ends⟩ := mem_filter.mp kept
    obtain ⟨rfl, -⟩ := of_decide_eq_true ends
    exact inTable
  · intro inTable
    have smaller := resolved.smaller _ inTable
    exact mem_map.mpr
      ⟨_, mem_filter.mpr ⟨inTable, decide_eq_true ⟨rfl, smaller.ne'⟩⟩, rfl⟩

theorem tableRoot_of_tableChildren (resolved : Resolved pairs)
    (member : child ∈ tableChildren pairs parent) : tableRoot pairs child = parent :=
  tableRoot_of_mem resolved.nodup ((mem_tableChildren resolved).mp member)

theorem tableChildren_of_moved (resolved : Resolved pairs) {x : NodeId}
    (moved : tableRoot pairs x ≠ x) : x ∈ tableChildren pairs (tableRoot pairs x) := by
  obtain ⟨pair, member, rfl⟩ := mem_map.mp ((resolved.tableRoot_ne_iff x).mp moved)
  rw [tableRoot_of_mem resolved.nodup (y := pair.2) member]
  exact (mem_tableChildren resolved).mpr member

/-! ## One tier -/

/-- Children that lead from the root of each class to all of it. -/
structure Descends (kids : NodeId → List NodeId) (root : NodeId → NodeId) : Prop where
  distinct : ∀ k, (kids k).Nodup
  edge : ∀ {p c}, c ∈ kids p → root c = root p
  reaches : ∀ x, Relation.ReflTransGen (fun a b => b ∈ kids a) (root x) x

section OneTier

variable {table : PuffinBase → List (NodeId × NodeId)} {layers : List PuffinBase}
  (resolved : ∀ layer ∈ layers, Resolved (table layer))
  (layered : Layered (layers.map fun layer => tableRoot (table layer)))

include resolved layered

theorem nodup_layerChildren (parent : NodeId) :
    (layers.flatMap fun layer => tableChildren (table layer) parent).Nodup := by
  have keys := disjoint_keys table resolved layered
  have inside : ∀ layer, (tableChildren (table layer) parent).Subperm
      ((table layer).map Prod.fst) := fun layer =>
    (tableChildren_perm (table layer) parent).subperm.trans
      (filter_sublist.map Prod.fst).subperm
  have whole : (layers.flatMap fun layer => tableChildren (table layer) parent).Subperm
      (layers.flatMap fun layer => (table layer).map Prod.fst) := by
    clear keys resolved layered
    induction layers with
    | nil => exact List.Subperm.refl _
    | cons layer layers ih =>
      exact (inside layer).append ih
  obtain ⟨part, perm, sublist⟩ := whole
  exact perm.nodup_iff.mp (keys.sublist sublist)

theorem stackRoot_of_layerChildren
    (member : child ∈ layers.flatMap fun layer => tableChildren (table layer) parent) :
    stackRoot (layers.map fun layer => tableRoot (table layer)) child =
        stackRoot (layers.map fun layer => tableRoot (table layer)) parent ∧
      stackRoot (layers.map fun layer => tableRoot (table layer)) child ≠ child := by
  obtain ⟨layer, inStack, here⟩ := mem_flatMap.mp member
  have listed : tableRoot (table layer) ∈ layers.map fun layer => tableRoot (table layer) :=
    mem_map.mpr ⟨layer, inStack, rfl⟩
  have stored := tableRoot_of_tableChildren (resolved layer inStack) here
  refine ⟨?_, fun fixed => ?_⟩
  · rw [← layered.stackRoot_layer listed child, stored]
  · have fixedHere := (stackRoot_eq_self_iff layered.rootMap child).mp fixed _ listed
    have inTable := (mem_tableChildren (resolved layer inStack)).mp here
    rw [stored] at fixedHere
    exact ((resolved layer inStack).smaller _ inTable).ne fixedHere

omit layered in
/-- The tables of the layers lead from the root of a stack to each point. -/
theorem reaches_layerChildren (x : NodeId) :
    Relation.ReflTransGen
      (fun a b => b ∈ layers.flatMap fun layer => tableChildren (table layer) a)
      (stackRoot (layers.map fun layer => tableRoot (table layer)) x) x := by
  induction layers generalizing x with
  | nil => exact .refl
  | cons layer layers ih =>
    rw [map_cons, stackRoot_cons]
    have above := (ih fun other member =>
      resolved other (mem_cons_of_mem layer member)) (tableRoot (table layer) x)
    have lifted := Relation.ReflTransGen.mono (fun a b edge =>
      mem_append_right (tableChildren (table layer) a) edge) _ _ above
    by_cases moved : tableRoot (table layer) x = x
    · rw [moved] at lifted ⊢
      exact lifted
    · apply lifted.tail
      exact mem_append_left _
        (tableChildren_of_moved (resolved layer mem_cons_self) moved)

/-- The merge edges of a structure over a stack, and the tables of the stack. -/
theorem descends {d : Dsu} (decreasing : d.Decreasing) (tracks : d.Tracks)
    (atop : Over d.root (stackRoot (layers.map fun layer => tableRoot (table layer)))) :
    Descends
      (fun k => d.absorbed k ++ layers.flatMap fun layer => tableChildren (table layer) k)
      (fun x => d.root (stackRoot (layers.map fun layer => tableRoot (table layer)) x)) where
  distinct k := by
    refine nodup_append'.mpr
      ⟨tracks.distinct k, nodup_layerChildren resolved layered k, fun c absorbed stored => ?_⟩
    -- what the structure has absorbed is a root of the stack
    have moved := (tracks.touches decreasing absorbed).1
    exact (stackRoot_of_layerChildren resolved layered stored).2 (atop c moved).1
  edge {p c} member := by
    rcases mem_append.mp member with absorbed | stored
    · obtain ⟨moved, touched⟩ := tracks.touches decreasing absorbed
      rw [(atop c moved).1, atop.fixes_touched touched]
      exact (tracks.edge absorbed).2
    · rw [(stackRoot_of_layerChildren resolved layered stored).1]
  reaches x := by
    have upper := Relation.ReflTransGen.mono (fun a b edge =>
      mem_append_left (layers.flatMap fun layer => tableChildren (table layer) a) edge) _ _
      (tracks.reaches (stackRoot (layers.map fun layer => tableRoot (table layer)) x))
    have lower := Relation.ReflTransGen.mono (fun a b edge =>
      mem_append_right (d.absorbed a) edge) _ _ (reaches_layerChildren resolved x)
    exact upper.trans lower

end OneTier

/-! ## What is fetched -/

/-- An empty table has no member table and no children. -/
theorem take_memberTable (pairs : List (NodeId × NodeId)) (parent : NodeId) (limit : Nat) :
    ((memberTable pairs).map fun table => (childrenIn table parent).take limit).getD [] =
      (tableChildren pairs parent).take limit := by
  unfold memberTable tableChildren
  dsimp only
  split
  · next empty => simp [List.isEmpty_iff.mp empty, childrenIn]
  · rfl

/-- Collecting from the layers in turn takes the first of all their children. -/
theorem foldl_gather {limit : Nat}
    (fetched : ∀ layer ∈ layers, ∀ n, fetch layer n = (kids layer).take n) (out : List NodeId)
    (short : out.length ≤ limit) :
    layers.foldl (fun out layer =>
        if out.length ≥ limit then out else out ++ fetch layer (limit - out.length)) out =
      out ++ (layers.flatMap kids).take (limit - out.length) := by
  induction layers generalizing out with
  | nil => simp
  | cons layer layers ih =>
    have rest := ih fun other member =>
      fetched other (mem_cons_of_mem layer member)
    rw [foldl_cons, flatMap_cons]
    by_cases full : out.length ≥ limit
    · have none : limit - out.length = 0 := Nat.sub_eq_zero_of_le full
      rw [if_pos full, rest out short, none, take_zero, take_zero]
    · rw [if_neg full, fetched layer mem_cons_self, rest]
      · rw [append_assoc, take_append, length_append, length_take]
        congr 3
        omega
      · rw [length_append, length_take]
        omega

theorem gather_eq (fetched : ∀ layer ∈ layers, ∀ n, fetch layer n = (kids layer).take n)
    (limit : Nat) : gather fetch layers limit = (layers.flatMap kids).take limit :=
  foldl_gather fetched [] (Nat.zero_le limit)

/-- What a stack of indexed runs hands out. -/
theorem gather_children (indexed : ∀ layer ∈ layers, (written layer).isSome)
    (table : PuffinBase → List (NodeId × NodeId)) (k : NodeId) (limit : Nat) :
    gather (fun layer limit => (((written layer).bind fun _ => memberTable (table layer)).map
        fun members => (childrenIn members k).take limit).getD []) layers limit =
      (layers.flatMap fun layer => tableChildren (table layer) k).take limit := by
  apply gather_eq
  intro layer member n
  obtain ⟨encoding, some⟩ := Option.isSome_iff_exists.mp (indexed layer member)
  rw [some]
  exact take_memberTable (table layer) k n

/-- A budget that is shared by two lists takes the first of both. -/
theorem take_take_append (first second : List NodeId) (limit : Nat) :
    first.take limit ++ second.take (limit - (first.take limit).length) =
      (first ++ second).take limit := by
  rw [take_append, length_take]
  congr 2
  omega

namespace Tier

/-- All children in the shared tier. -/
def sharedKids (t : Tier LayeredBase) (k : NodeId) : List NodeId :=
  t.mem.global.absorbed k ++ (baseLayers t.base).flatMap fun layer => tableChildren layer.shared k

/-- All children in the overlay of a scope. -/
def overlayKids (t : Tier LayeredBase) (scope : ScopeId) (k : NodeId) : List NodeId :=
  (t.mem.overlay scope).absorbed k ++
    (baseLayers t.base).flatMap fun layer => tableChildren (layer.overlay scope) k

section Fetch

variable {t : Tier LayeredBase} {written : Written}
  (indexed : ∀ layer ∈ baseLayers t.base, (written layer).isSome)

include indexed

theorem sharedFetch_eq (k : NodeId) (limit : Nat) :
    t.sharedFetch written k limit = (t.sharedKids k).take limit := by
  unfold sharedFetch sharedKids Dsu.childrenOf
  cases current : t.base with
  | none => simp [baseLayers]
  | some base =>
    rw [current] at indexed
    rw [← take_take_append]
    exact congrArg _ (gather_children indexed PuffinBase.shared k _)

theorem overlayFetch_eq (scope : ScopeId) (k : NodeId) (limit : Nat) :
    t.overlayFetch written scope k limit = (t.overlayKids scope k).take limit := by
  have mem : (t.mem.overlays[scope]?.map fun overlay => overlay.childrenOf k limit).getD [] =
      ((t.mem.overlay scope).absorbed k).take limit := by
    rw [Memtable.overlay, Std.TreeMap.getD_eq_getD_getElem?]
    cases t.mem.overlays[scope]? with
    | none => cases t.mem.memberIndex <;> simp [Dsu.absorbed, Dsu.trackingMembers]
    | some overlay => rfl
  unfold overlayFetch overlayKids
  rw [mem]
  cases current : t.base with
  | none => simp [baseLayers]
  | some base =>
    rw [current] at indexed
    rw [← take_take_append]
    exact congrArg _ (gather_children indexed (fun layer => layer.overlay scope) k _)

end Fetch

section Descent

variable {t : Tier LayeredBase} (wellFormed : t.WellFormed) (ok : StackOk (baseLayers t.base))
  (tracks : t.mem.Tracks)

include wellFormed ok tracks

theorem sharedKids_descends : Descends t.sharedKids t.view.shared := by
  have atop := wellFormed.sharedOver
  rw [sharedRoot_base t.base ok] at atop
  have both := descends (fun layer member => (ok.wellFormed layer member).shared) ok.shared
    wellFormed.global tracks.global atop
  have view : t.view.shared = fun x => t.mem.global.root (stackShared (baseLayers t.base) x) := by
    rw [← sharedRoot_base t.base ok]
    rfl
  rw [view]
  exact both

theorem overlayKids_descends (s : ScopeId) : Descends (t.overlayKids s) (t.view.overlay s) := by
  have atop := wellFormed.overlayOver s
  rw [overlayRoot_base t.base ok] at atop
  have both := descends (fun layer member => (ok.wellFormed layer member).overlays s)
    (ok.overlay s) (wellFormed.overlays s) (tracks.overlay s) atop
  have view : t.view.overlay s =
      fun x => t.mem.overlayRoot s (stackOverlay (baseLayers t.base) s x) := by
    rw [← overlayRoot_base t.base ok]
    rfl
  rw [view]
  exact both

end Descent

end Tier

/-! ## The query -/

@[simp]
theorem nodes_finishWalk (walk : Walk NodeId) : (finishWalk walk).nodes = walk.out := by
  unfold finishWalk
  split <;> rfl

@[simp]
theorem isTruncated_finishWalk (walk : Walk NodeId) :
    (finishWalk walk).isTruncated = walk.truncated := by
  unfold finishWalk
  split
  · next truncated => exact truncated.symm
  · next complete => exact (Bool.eq_false_of_not_eq_true complete).symm

theorem walkFrom_eq (small : cap + 1 < 2 ^ 64) (seeds : List NodeId)
    {fetch : NodeId → Nat → List NodeId} {kids : NodeId → List NodeId}
    (fetched : ∀ k limit, fetch k limit = (kids k).take limit) :
    walkFrom cap seeds fetch =
      (Walk.new cap).expand (cap + 1) seeds fun k limit => (kids k).take limit := by
  have same : fetch = fun k limit => (kids k).take limit := by
    funext k limit
    exact fetched k limit
  rw [walkFrom, Nat.mod_eq_of_lt small, same]

namespace ScopedForest

theorem membersAvailable_iff :
    f.membersAvailable written ↔ f.memberIndex = true ∧
      ∀ layer ∈ baseLayers f.tier.base, layer.hasMemberIndex (written layer) := by
  rw [membersAvailable, Bool.and_eq_true]
  apply and_congr_right
  intro _
  cases f.tier.base with
  | none => simp [baseLayers]
  | some base => simp [baseLayers, LayeredBase.hasMemberIndex]

/-- A query is answered exactly when queries are said to be available. -/
theorem isSome_members (f : ScopedForest LayeredBase) (written : Written) (scope : ScopeId)
    (node : NodeId) (cap : Nat) :
    (f.members written scope node cap).2.isSome = f.membersAvailable written := by
  have unindexed : (f.tier.base.any fun base => !base.hasMemberIndex written) =
      !(f.tier.base.all fun base => base.hasMemberIndex written) := by
    cases f.tier.base <;> rfl
  rw [members, membersAvailable, unindexed]
  cases f.memberIndex with
  | false => rfl
  | true =>
    cases f.tier.base.all fun base => base.hasMemberIndex written with
    | false => rfl
    | true =>
      change Option.isSome (Prod.snd (if scope = globalScope then _ else _)) = true
      split <;> rfl

/-- A query is answered only if members are tracked and every layer of the base has
an index. -/
theorem of_members (answered : (f.members written scope node cap).2 = some answer) :
    f.memberIndex = true ∧
      ∀ layer ∈ baseLayers f.tier.base, layer.hasMemberIndex (written layer) := by
  have available := isSome_members f written scope node cap
  rw [answered] at available
  exact membersAvailable_iff.mp available.symm

theorem isSome_of_hasMemberIndex {file : PuffinBase} {written : Option MemberEncoding}
    (index : file.hasMemberIndex written) : written.isSome := by
  cases written with
  | none => cases index
  | some encoding => rfl

section Query

variable {f : ScopedForest LayeredBase} {events : Set EdgeEvent} (onDisk : f.OnDisk events)
  (tracks : f.tier.mem.Tracks) {written : Written}
  (indexed : ∀ layer ∈ baseLayers f.tier.base, (written layer).isSome)

include onDisk tracks indexed

/-- The walk of the shared tier from the root of a node. -/
theorem walk_shared (node : NodeId) (small : cap + 1 < 2 ^ 64) :
    let walk := walkFrom cap [f.tier.view.shared node] (f.tier.sharedFetch written)
    Answers {y | (visibleGraph events globalScope).Reachable node y} cap walk.truncated
      walk.out := by
  have shared := onDisk.represents.view.shared
  have kids := Tier.sharedKids_descends onDisk.represents.wellFormed onDisk.stack tracks
  intro walk
  have answers := expand_answers kids.distinct (Nat.lt_succ_self cap) [f.tier.view.shared node]
  rw [← walkFrom_eq small _ (Tier.sharedFetch_eq indexed)] at answers
  have component : {y | Reaches f.tier.sharedKids [f.tier.view.shared node] y} =
      {y | (visibleGraph events globalScope).Reachable node y} := by
    ext y
    change Reaches _ _ y ↔ (visibleGraph events globalScope).Reachable node y
    rw [← shared.eq_iff_reachable]
    constructor
    · intro reaches
      symm
      apply reaches.induct (P := fun y => f.tier.view.shared y = f.tier.view.shared node)
      · intro s seed
        rw [mem_singleton.mp seed]
        exact shared.rootMap.idem node
      · intro a same b edge
        rw [kids.edge edge, same]
    · intro same
      refine ⟨_, mem_singleton_self _, ?_⟩
      rw [same]
      exact kids.reaches y
  rw [component] at answers
  exact answers

/-- The walk of an overlay from the root of a node, and of the shared tier from what
it finds. -/
theorem walk_overlay (scope : ScopeId) (node : NodeId) (small : cap + 2 < 2 ^ 64) :
    let seeds := walkFrom (min (cap + 1) (2 ^ 64 - 1))
      [f.tier.view.overlay scope (f.tier.view.shared node)] (f.tier.overlayFetch written scope)
    let walk := walkFrom cap seeds.out (f.tier.sharedFetch written)
    Answers {y | (visibleGraph events scope).Reachable node y} cap walk.truncated walk.out := by
  have view := onDisk.represents.view
  have wellFormed := onDisk.represents.wellFormed
  have shared := Tier.sharedKids_descends wellFormed onDisk.stack tracks
  have overlay := Tier.overlayKids_descends wellFormed onDisk.stack tracks scope
  have unsaturated : min (cap + 1) (2 ^ 64 - 1) = cap + 1 := by omega
  have first : cap + 1 < 2 ^ 64 := by omega
  rw [unsaturated]
  dsimp only
  rw [walkFrom_eq small _ (Tier.overlayFetch_eq indexed scope),
    walkFrom_eq first _ (Tier.sharedFetch_eq indexed)]
  apply expand_expand_answers overlay.distinct shared.distinct (Nat.lt_succ_self _)
    (Nat.lt_succ_self _)
  · -- an overlay element lies in the overlay class of the root
    intro e reaches
    apply reaches.induct (P := fun e => (visibleGraph events scope).Reachable node e)
    · intro s seed
      rw [mem_singleton.mp seed]
      exact view.reachable_root scope node
    · intro a reached b edge
      have back := view.sound scope b
      rw [overlay.edge edge] at back
      exact (reached.trans (view.sound scope a)).trans back.symm
  · intro a reached b edge
    have back := view.shared.sound b
    rw [shared.edge edge] at back
    exact reached.trans (((view.shared.sound a).trans back.symm).mono (view.includes scope))
  · intro y reached
    refine ⟨f.tier.view.shared y, ⟨_, mem_singleton_self _, ?_⟩, shared.reaches y⟩
    rw [(view.eq_iff_reachable scope node y).mpr reached]
    exact overlay.reaches _

end Query

/-- A member query that is answered lists the component that the scope sees. -/
theorem OnDisk.members_answers {events : Set EdgeEvent} (onDisk : f.OnDisk events)
    (tracks : f.tier.mem.Tracks) (small : cap + 2 < 2 ^ 64)
    (answered : (f.members written scope node cap).2 = some answer) :
    Answers {y | (visibleGraph events scope).Reachable node y} cap answer.isTruncated
      answer.nodes := by
  have index : ∀ layer ∈ baseLayers f.tier.base, (written layer).isSome := fun layer member =>
    isSome_of_hasMemberIndex ((of_members answered).2 layer member)
  have wellFormed := onDisk.represents.wellFormed
  -- the lookups compress paths, which the walks do not read
  obtain ⟨foundShared, first⟩ := Tier.sharedRoot_spec wellFormed node false
  obtain ⟨foundOverlay, second⟩ := Tier.overlayRoot_spec (first.wellFormed wellFormed) scope
    (f.tier.view.shared node) false
  have indexAfter : ∀ {t}, Tier.CompressedTo f.tier t →
      ∀ layer ∈ baseLayers t.base, (written layer).isSome := by
    intro t compressed
    rw [compressed.base_eq]
    exact index
  have tracksAfter : ∀ {t}, Tier.CompressedTo f.tier t → t.mem.Tracks := fun compressed =>
    (Tier.Evolves.of_compressed compressed).tracks wellFormed tracks
  unfold ScopedForest.members at answered
  split at answered
  · cases answered
  · split at answered
    · cases answered
    · dsimp only at answered
      rw [foundShared] at answered
      split at answered
      · next isGlobal =>
          subst isGlobal
          cases answered
          have walked := walk_shared (onDisk.setTier first) (tracksAfter first) (indexAfter first)
            node ((Nat.lt_succ_self _).trans small)
          dsimp only [ScopedForest.setTier] at walked
          rw [first.view_eq] at walked
          rw [isTruncated_finishWalk, nodes_finishWalk]
          exact walked
      · have both := first.trans second
        cases answered
        have walked := walk_overlay (onDisk.setTier both) (tracksAfter both) (indexAfter both)
          scope node small
        dsimp only [ScopedForest.setTier] at walked
        rw [both.view_eq] at walked
        rw [isTruncated_finishWalk, nodes_finishWalk, foundOverlay, first.view_eq]
        exact walked

end ScopedForest

end Blaze
