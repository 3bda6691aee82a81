import Blaze.Storage.LineageAnswers
import Blaze.Storage.MemberWalk

/-!
# Member queries along a lineage

A forest that tracks members does so in every structure it ever holds, whether it
starts fresh, over files or by loading them.  A query that is answered therefore
lists its component.  Whether it is answered depends on the layers of the base: a
run without shared pairs looks like one without an index.
-/

namespace Blaze

open RootMap PairTable LayeredBase CappedWalk

variable {pairs : List (NodeId × NodeId)} {f : ScopedForest LayeredBase} {files : List PuffinBase}
  {file : PuffinBase} {events : List EdgeEvent} {d : DiskForest} {answer : Members}

/-! ## Tracking -/

/-- Loading a resolved table over points that are roots links them. -/
theorem Dsu.grows_hydrate {d : Dsu} (decreasing : d.Decreasing) (resolved : Resolved pairs)
    (atop : Over (tableRoot pairs) d.root) : Grows (fun _ => True) d (d.hydrate pairs) := by
  refine Grows.trans ?_ (.recount _ _)
  induction pairs generalizing d with
  | nil => exact .refl d
  | cons pair pairs ih =>
    have smaller := resolved.smaller pair List.mem_cons_self
    have here : tableRoot (pair :: pairs) pair.1 = pair.2 := by
      rw [tableRoot_cons, if_pos rfl]
    have fixed := atop pair.1 (by rw [here]; exact smaller.ne)
    rw [here] at fixed
    obtain ⟨linked, rest, -⟩ := link_resolved decreasing resolved atop
    rw [List.foldl_cons, if_pos smaller.ne']
    exact (Grows.link smaller fixed.1 fixed.2 trivial trivial).trans
      (ih linked resolved.of_cons rest)

namespace ScopedForest

/-- A forest that tracks members tracks them in every structure. -/
def Tracked (f : ScopedForest LayeredBase) : Prop :=
  f.memberIndex = true → f.tier.mem.Tracks

theorem tracked_tracking (untracked : f.memberIndex = false) (memberIndex : Bool) :
    (f.tracking memberIndex).Tracked := by
  cases memberIndex with
  | false =>
    intro flag
    rw [tracking, if_neg (by decide), untracked] at flag
    cases flag
  | true =>
    intro _
    exact Memtable.tracks_new

theorem memberIndex_foldl {α : Type} {step : ScopedForest LayeredBase → α →
    ScopedForest LayeredBase} (keeps : ∀ f item, (step f item).memberIndex = f.memberIndex)
    (items : List α) (f : ScopedForest LayeredBase) :
    (items.foldl step f).memberIndex = f.memberIndex := by
  induction items generalizing f with
  | nil => rfl
  | cons item items ih => rw [List.foldl_cons, ih, keeps]

theorem memberIndex_fixUp (merge : Merge) (f : ScopedForest LayeredBase) (s : ScopeId) :
    (fixUp merge f s).memberIndex = f.memberIndex := by
  unfold fixUp
  dsimp only
  split <;> rfl

theorem memberIndex_notify (f : ScopedForest LayeredBase) (merge : Merge) :
    (f.notify merge).memberIndex = f.memberIndex := by
  have loop := memberIndex_foldl (memberIndex_fixUp merge) (notified f.tier merge.child)
    (f.setTier (f.tier.unregister merge.child))
  unfold notify
  dsimp only
  split
  · exact loop
  · exact loop

theorem memberIndex_apply (f : ScopedForest LayeredBase) (event : EdgeEvent) :
    (f.apply event).memberIndex = f.memberIndex := by
  unfold apply
  generalize event.visibility.normalize = visibility
  cases visibility with
  | global =>
    unfold applyGlobal
    dsimp only
    split
    · rfl
    · exact memberIndex_notify _ _
  | scopedTo scopes =>
    have keeps (ru rv : NodeId) (f : ScopedForest LayeredBase) (scope : ScopeId) :
        (linkScoped ru rv f scope).memberIndex = f.memberIndex := rfl
    exact memberIndex_foldl (keeps _ _) scopes _

/-- Loading a file keeps the structures tracked. -/
theorem tracks_hydrate (hydrated : Hydrated f files) (ok : StackOk (files ++ [file]))
    (tracks : f.tier.mem.Tracks) : (f.hydrate (blobsToSnapshot file)).tier.mem.Tracks := by
  obtain ⟨here, sharedOver, overlayOver⟩ := StackOk.pop ok
  have atop : Over (tableRoot file.shared) f.tier.mem.global.root := by
    rw [hydrated.shared]
    exact sharedOver
  have grows := Dsu.grows_hydrate hydrated.global here.shared atop
  have loads := loadsScopes_hydrate (Dsu.hydrate_spec hydrated.global here.shared atop).1
  refine ⟨?_, fun s => ?_⟩
  · exact (grows.tracks hydrated.global tracks.global).compressed loads.global
  · rcases loads.overlay s with ⟨kept, -⟩ | ⟨loaded, -⟩
    · rw [kept]
      exact tracks.overlay s
    · rw [loaded]
      have overlayAtop := overlayOver s
      rw [← hydrated.overlay] at overlayAtop
      exact (Dsu.grows_hydrate (hydrated.overlays s) (here.overlays s) overlayAtop).tracks
        (hydrated.overlays s) (tracks.overlay s)

end ScopedForest

theorem memberIndex_hydrateAll (files : List PuffinBase) (f : ScopedForest LayeredBase) :
    (hydrateAll f files).memberIndex = f.memberIndex := by
  have keeps (f : ScopedForest LayeredBase) (entry : ScopeId × List (NodeId × NodeId)) :
      (f.hydrateScope entry).memberIndex = f.memberIndex := rfl
  have loads (f : ScopedForest LayeredBase) (file : PuffinBase) :
      (f.hydrate (blobsToSnapshot file)).memberIndex = f.memberIndex :=
    ScopedForest.memberIndex_foldl keeps (blobsToSnapshot file).scopes _
  exact ScopedForest.memberIndex_foldl loads files f

theorem tracks_hydrateAll {older : List PuffinBase} (hydrated : f.Hydrated older)
    (ok : StackOk (older ++ files)) (tracks : f.tier.mem.Tracks) :
    (hydrateAll f files).tier.mem.Tracks := by
  induction files generalizing f older with
  | nil => exact tracks
  | cons file files ih =>
    rw [List.append_cons] at ok
    have prefixOk := StackOk.of_append_left ok
    exact ih (hydrated.hydrate prefixOk) ok (ScopedForest.tracks_hydrate hydrated prefixOk tracks)

/-- A step keeps the flag and the tracking. -/
theorem DiskForest.tracked_step {applied : List EdgeEvent} {d' : DiskForest}
    (invariant : Invariant events d) (tracked : d.forest.Tracked) (step : Step d applied d') :
    d'.forest.Tracked := by
  have flag : d'.forest.memberIndex = d.forest.memberIndex := by
    cases step with
    | apply event => exact ScopedForest.memberIndex_apply d.forest event
    | query s x =>
      dsimp only [ScopedForest.scopeRoot]
      split <;> rfl
    | _ => rfl
  have moves := step_moves invariant step
  intro tracks
  rw [flag] at tracks
  rw [tracks] at moves
  generalize d'.forest.tier = t at moves ⊢
  cases moves with
  | evolved evolves => exact evolves.tracks invariant.onDisk.represents.wellFormed (tracked tracks)
  | folded | rewritten => exact Memtable.tracks_new
  | spliced current merged => exact tracked tracks

theorem Lineage.tracked (lineage : Lineage events d) : d.forest.Tracked := by
  induction lineage with
  | fresh memberIndex => exact ScopedForest.tracked_tracking rfl memberIndex
  | step before step ih =>
    exact DiskForest.tracked_step before.settled.toInvariant ih step
  | opened before encodes layered memberIndex _ =>
    exact ScopedForest.tracked_tracking rfl memberIndex
  | hydrated before encodes memberIndex _ =>
    intro flag
    rw [memberIndex_hydrateAll] at flag
    have routes := encodes.routes before.settled.onDisk
    have fresh := ScopedForest.tier_tracking_new memberIndex
    apply tracks_hydrateAll (ScopedForest.hydrated_nil fresh) routes.stack
    exact ScopedForest.tracked_tracking rfl memberIndex flag

/-! ## What an answer lists -/

namespace Members

theorem eq_complete (complete : answer.isTruncated = false) : answer = .complete answer.nodes := by
  cases answer with
  | complete nodes => rfl
  | truncated nodes => cases complete

theorem eq_truncated (truncated : answer.isTruncated = true) :
    answer = .truncated answer.nodes := by
  cases answer with
  | complete nodes => cases truncated
  | truncated nodes => rfl

end Members

/-- Whatever the past of a forest, and whichever of its files were written with a
member index, a query that is answered lists the component that the scope sees: all
of it if the cap allows, and otherwise as many of its nodes as the cap allows. -/
theorem members_list_component {events : List EdgeEvent} {d : DiskForest}
    (lineage : Lineage events d) {written : Written} {scope : ScopeId} {node : NodeId} {cap : Nat}
    (small : cap + 2 < 2 ^ 64) {answer : Members}
    (answered : (d.forest.members written scope node cap).2 = some answer) :
    let component := {y | (visibleGraph {event | event ∈ events} scope).Reachable node y}
    answer.nodes.Nodup ∧ (∀ y ∈ answer.nodes, y ∈ component) ∧
      (component.encard ≤ cap →
        answer = .complete answer.nodes ∧ ∀ y ∈ component, y ∈ answer.nodes) ∧
      (cap < component.encard → answer = .truncated answer.nodes ∧ answer.nodes.length = cap) := by
  intro component
  have tracks := lineage.tracked (ScopedForest.of_members answered).1
  have answers := lineage.settled.onDisk.members_answers tracks small answered
  refine ⟨answers.distinct, answers.inside, fun fits => ?_, fun exceeds => ?_⟩
  · obtain ⟨complete, all⟩ := answers.fits fits
    exact ⟨Members.eq_complete complete, all⟩
  · obtain ⟨truncated, length⟩ := answers.exceeds exceeds.not_ge
    exact ⟨Members.eq_truncated truncated, length⟩

/-- A layer of shared links and a tenant's link above it, from a forest that tracks
members. -/
def trackedLayer : DiskForest :=
  ⟨(foldedDelta (((ScopedForest.new.tracking true).apply ⟨5, 3, .global, 0, none⟩).apply
    ⟨6, 5, .global, 0, none⟩)).apply ⟨3, 1, .scopedTo [7], 0, none⟩, []⟩

theorem lineage_trackedLayer :
    Lineage [⟨5, 3, .global, 0, none⟩, ⟨6, 5, .global, 0, none⟩, ⟨3, 1, .scopedTo [7], 0, none⟩]
      trackedLayer :=
  .step (.step (.step (.step (.fresh true) (.apply _ _)) (.apply _ _)) (.foldDelta _)) (.apply _ _)

/-- The tenant's component has four nodes; a cap of three cuts the list. -/
theorem members_list_component_trackedLayer :
    (trackedLayer.forest.members (fun _ => some .blocked) 7 6 4).2 =
        some (.complete [1, 3, 5, 6]) ∧
      (trackedLayer.forest.members (fun _ => some .flat) 7 6 3).2 =
        some (.truncated [1, 3, 5]) ∧
      ∀ y ∈ [1, 3, 5, 6], (visibleGraph {event | event ∈ [⟨5, 3, .global, 0, none⟩,
        ⟨6, 5, .global, 0, none⟩, ⟨3, 1, .scopedTo [7], 0, none⟩]} 7).Reachable 6 y := by
  have four : (trackedLayer.forest.members (fun _ => some .blocked) 7 6 4).2 =
      some (.complete [1, 3, 5, 6]) := by decide +kernel
  refine ⟨four, by decide +kernel, ?_⟩
  exact (members_list_component lineage_trackedLayer (by decide) four).2.1

/-! ## Which queries are answered -/

/-- A resolved table is written to the member index unless it is empty. -/
theorem isSome_memberTable (resolved : Resolved pairs) :
    (memberTable pairs).isSome ↔ pairs ≠ [] := by
  have proper : pairs.filter (fun pair => pair.1 ≠ pair.2) = pairs := by
    apply List.filter_eq_self.mpr
    intro pair member
    simpa using (resolved.smaller pair member).ne'
  have length : (invertPairs pairs).length = pairs.length := by
    rw [invertPairs, proper, List.length_insertionSort, List.length_map]
  rw [memberTable]
  cases pairs with
  | nil => simp [invertPairs]
  | cons pair rest =>
    cases inverted : invertPairs (pair :: rest) with
    | nil => rw [inverted] at length; cases length
    | cons first others => simp

theorem PuffinBase.hasMemberIndex_iff (wellFormed : file.WellFormed)
    {written : Option MemberEncoding} (index : written.isSome) :
    file.hasMemberIndex written ↔ file.shared ≠ [] := by
  obtain ⟨encoding, rfl⟩ := Option.isSome_iff_exists.mp index
  exact isSome_memberTable wellFormed.shared

/-- In a forest that tracks members over files all written with a member index,
member queries are available, and answered, exactly as long as every layer has
shared pairs. -/
theorem members_available_iff {events : List EdgeEvent} {d : DiskForest}
    (lineage : Lineage events d) (tracking : d.forest.memberIndex = true) {written : Written}
    (index : ∀ layer ∈ baseLayers d.forest.tier.base, (written layer).isSome) :
    (d.forest.membersAvailable written = true ∧
        ∀ scope node cap, (d.forest.members written scope node cap).2 ≠ none) ↔
      ∀ layer ∈ baseLayers d.forest.tier.base, layer.shared ≠ [] := by
  have wellFormed := lineage.settled.onDisk.stack.wellFormed
  have available : d.forest.membersAvailable written = true ↔
      ∀ layer ∈ baseLayers d.forest.tier.base, layer.shared ≠ [] := by
    rw [ScopedForest.membersAvailable_iff]
    constructor
    · rintro ⟨-, all⟩ layer member
      exact (PuffinBase.hasMemberIndex_iff (wellFormed layer member) (index layer member)).mp
        (all layer member)
    · intro all
      refine ⟨tracking, fun layer member => ?_⟩
      exact (PuffinBase.hasMemberIndex_iff (wellFormed layer member) (index layer member)).mpr
        (all layer member)
  rw [available]
  apply and_iff_left_of_imp
  intro all scope node cap
  rw [← Option.isSome_iff_ne_none, ScopedForest.isSome_members]
  exact available.mpr all

theorem members_available_iff_trackedLayer :
    trackedLayer.forest.membersAvailable (fun _ => some .flat) = true ∧
      ∀ scope node cap,
        (trackedLayer.forest.members (fun _ => some .flat) scope node cap).2 ≠ none := by
  apply (members_available_iff lineage_trackedLayer rfl fun _ _ => rfl).mpr
  decide +kernel

/-- Folding a memtable that holds only a tenant's link, or nothing at all, leaves a
layer without shared pairs, and no query is answered from then on. -/
theorem members_unavailable_after_fold :
    ∃ tenant empty : DiskForest,
      Lineage [⟨4, 2, .scopedTo [7], 0, none⟩] tenant ∧ Lineage [] empty ∧
      ∀ d ∈ [tenant, empty], d.forest.memberIndex = true ∧
        d.forest.membersAvailable (fun _ => some .blocked) = false ∧
        (d.forest.members (fun _ => some .blocked) 7 4 10).2 = none := by
  refine ⟨⟨foldedDelta ((ScopedForest.new.tracking true).apply
    ⟨4, 2, .scopedTo [7], 0, none⟩), []⟩, ⟨foldedDelta (ScopedForest.new.tracking true), []⟩,
    .step (.step (.fresh true) (.apply _ _)) (.foldDelta _), .step (.fresh true) (.foldDelta _), ?_⟩
  decide +kernel

end Blaze
