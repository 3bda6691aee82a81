import Blaze.Core.Growth
import Blaze.Storage.DiskHistory
import Blaze.Storage.Hydrate
import Blaze.Storage.LayerRegistry

/-!
# The lineage of a forest

A forest starts fresh, over files that an earlier forest left behind, or by
loading such files into memory, and then goes through events, queries, folds and
spliced merges.  This file says what each step can do to a tier, and proves what
holds of every forest with such a past: it represents its events, its overlays
link only points its base has left alone, and every layer of its base registers
what it holds.
-/

namespace Blaze

open RootMap LayeredBase

variable {f : ScopedForest LayeredBase} {files older : List PuffinBase} {events : List EdgeEvent}
  {d : DiskForest} {base : LayeredBase}

namespace ScopedForest

/-- Whether to track members is decided before the first event. -/
def tracking (f : ScopedForest LayeredBase) (memberIndex : Bool) : ScopedForest LayeredBase :=
  if memberIndex then f.trackingMembers else f

@[simp]
theorem tier_tracking_new (memberIndex : Bool) :
    ((new : ScopedForest LayeredBase).tracking memberIndex).tier =
      ⟨none, Memtable.new memberIndex⟩ := by
  cases memberIndex <;> rfl

@[simp]
theorem tier_tracking_withBase (base : LayeredBase) (memberIndex : Bool) :
    ((withBase base).tracking memberIndex).tier = ⟨some base, Memtable.new memberIndex⟩ := by
  cases memberIndex <;> rfl

/-- The run files, oldest first, that hold the state of a forest: the layers of
its base once the memtable has been folded, or the one file that a compaction
writes at any time. -/
inductive Encodes (f : ScopedForest LayeredBase) : List PuffinBase → Prop
  | layers {base : LayeredBase} {memberIndex : Bool}
      (folded : f.tier = ⟨some base, Memtable.new memberIndex⟩) : f.Encodes base.layers
  | compacted : f.Encodes [writeBase f.compactInto.2]

theorem writeBase_compactInto (wellFormed : f.tier.WellFormed) :
    writeBase f.compactInto.2 = fullBase f.tier := by
  have streamed := (Tier.compactLocked_spec wellFormed).2
  change writeBase f.tier.compactLocked.2 = _
  rw [streamed]
  rfl

theorem Encodes.ne_nil (encodes : f.Encodes files) : files ≠ [] := by
  cases encodes with
  | layers folded => exact LayeredBase.nonempty _
  | compacted => simp

/-- The files that encode a forest hold the routing state of its events. -/
theorem Encodes.routes {events : Set EdgeEvent} (encodes : f.Encodes files)
    (onDisk : f.OnDisk events) : Routes files events := by
  cases encodes with
  | layers folded => exact (onDisk_iff_routes folded).mp onDisk
  | compacted =>
    rw [writeBase_compactInto onDisk.represents.wellFormed]
    exact onDisk_adopt_iff.mp (onDisk_full onDisk.represents)

end ScopedForest

/-! ## What a step does to a tier -/

/-- The memtable evolves over the same base, or it is folded into a delta layer,
or the whole state is rewritten, or a range of the base is replaced by its
merge. -/
inductive Tier.Moves (memberIndex : Bool) (t : Tier LayeredBase) : Tier LayeredBase → Prop
  | evolved {t' : Tier LayeredBase} (evolves : Tier.Evolves t t') : Moves memberIndex t t'
  | folded : Moves memberIndex t
      ⟨some (layerOver t.base (ScopedForest.deltaBase t)), Memtable.new memberIndex⟩
  | rewritten : Moves memberIndex t
      ⟨some (LayeredBase.new (ScopedForest.fullBase t)), Memtable.new memberIndex⟩
  | spliced {older newer : List PuffinBase} {slice base : LayeredBase}
      (current : baseLayers t.base = older ++ slice.layers ++ newer)
      (merged : base.layers = older ++ compactLayers slice :: newer) :
      Moves memberIndex t { t with base := some base }

namespace DiskForest

theorem step_moves {applied : List EdgeEvent} {d' : DiskForest} (invariant : Invariant events d)
    (step : Step d applied d') : Tier.Moves d.forest.memberIndex d.forest.tier d'.forest.tier := by
  have represents := invariant.onDisk.represents
  have wellFormed := represents.wellFormed
  cases step with
  | apply event => exact .evolved (ScopedForest.evolves_apply d.forest represents event)
  | query s x =>
    exact .evolved (.of_compressed (ScopedForest.scopeRoot_compressed d.forest wellFormed s x).1)
  | foldDelta =>
    rw [ScopedForest.foldDelta_ok d.forest wellFormed]
    exact .folded
  | compactAndFold =>
    rw [ScopedForest.compactAndFold_ok d.forest wellFormed]
    exact .rewritten
  | foldDeltaFails error =>
    exact .evolved (.of_compressed (d.forest.foldDelta_fails wellFormed error))
  | compactAndFoldFails error =>
    exact .evolved (.of_compressed (d.forest.compactAndFold_fails wellFormed error))
  | plan base slice start stop current range => exact .evolved (.refl _)
  | adopt base slice merged file start stop pending current range spliced =>
    obtain ⟨layersEq, mergedEq⟩ := invariant.layers_of_adopt pending current range spliced
    exact .spliced layersEq mergedEq

end DiskForest

/-- The forests there can be, with the events they have seen.  A worker that
starts over files left by another starts with no merge planned. -/
inductive Lineage : List EdgeEvent → DiskForest → Prop
  | fresh (memberIndex : Bool) : Lineage [] ⟨ScopedForest.new.tracking memberIndex, []⟩
  | step {events applied : List EdgeEvent} {d d' : DiskForest} (before : Lineage events d)
      (step : DiskForest.Step d applied d') : Lineage (events ++ applied) d'
  | opened {events : List EdgeEvent} {d : DiskForest} {files : List PuffinBase}
      {base : LayeredBase} (before : Lineage events d) (encodes : d.forest.Encodes files)
      (layered : LayeredBase.fromLayers files = .ok base) (memberIndex : Bool) :
      Lineage events ⟨(ScopedForest.withBase base).tracking memberIndex, []⟩
  | hydrated {events : List EdgeEvent} {d : DiskForest} {files : List PuffinBase}
      (before : Lineage events d) (encodes : d.forest.Encodes files) (memberIndex : Bool) :
      Lineage events ⟨hydrateAll (ScopedForest.new.tracking memberIndex) files, []⟩

namespace Lineage

/-- What holds of a forest with a past. -/
structure Settled (events : List EdgeEvent) (d : DiskForest) : Prop extends
    DiskForest.Invariant events d where
  live : ∀ s, Over (d.forest.tier.mem.overlayRoot s)
    (RoutingBase.sharedRoot d.forest.tier.base)
  indexed : StackIndexed (baseLayers d.forest.tier.base)

/-- An empty memtable links nothing. -/
theorem live_new (base : Option LayeredBase) (memberIndex : Bool) (s : ScopeId) :
    Over ((Memtable.new memberIndex).overlayRoot s) (RoutingBase.sharedRoot base) :=
  fun x moved => absurd (Memtable.overlayRoot_new memberIndex s x) moved

theorem settled_moves (settled : Settled events d) {memberIndex : Bool} {t : Tier LayeredBase}
    (moves : Tier.Moves memberIndex d.forest.tier t) :
    (∀ s, Over (t.mem.overlayRoot s) (RoutingBase.sharedRoot t.base)) ∧
      StackIndexed (baseLayers t.base) := by
  have wellFormed := settled.onDisk.represents.wellFormed
  have ok := settled.onDisk.stack
  cases moves with
  | evolved evolves =>
    rw [evolves.base_eq]
    refine ⟨fun s => ?_, settled.indexed⟩
    exact (evolves.overlay s).atop (wellFormed.overlays s) (settled.live s)
  | folded =>
    refine ⟨live_new _ memberIndex, ?_⟩
    change StackIndexed (layerOver _ _).layers
    rw [layers_layerOver]
    exact settled.indexed.push (indexed_delta wellFormed ok settled.live)
  | rewritten =>
    exact ⟨live_new _ memberIndex, StackIndexed.singleton (indexed_full wellFormed)⟩
  | @spliced older newer slice base current merged =>
    have indexed := settled.indexed
    rw [current] at indexed
    refine ⟨fun s => ?_, ?_⟩
    · change Over _ (RoutingBase.sharedRoot (some base))
      rw [ScopedForest.sharedRoot_spliced ok current merged]
      exact settled.live s
    · change StackIndexed base.layers
      rw [current] at ok
      rw [merged]
      exact StackIndexed.splice ok indexed

theorem indexed_of_encodes (settled : Settled events d) (encodes : d.forest.Encodes files) :
    StackIndexed files := by
  cases encodes with
  | layers folded =>
    have indexed := settled.indexed
    rw [folded] at indexed
    exact indexed
  | compacted =>
    rw [ScopedForest.writeBase_compactInto settled.onDisk.represents.wellFormed]
    exact StackIndexed.singleton (indexed_full settled.onDisk.represents.wellFormed)

theorem layers_fromLayers (layered : LayeredBase.fromLayers files = .ok base) :
    base.layers = files := by
  unfold LayeredBase.fromLayers at layered
  split at layered
  · cases layered
  · cases layered
    rfl

theorem settled (lineage : Lineage events d) : Settled events d := by
  induction lineage with
  | fresh memberIndex =>
    refine ⟨⟨⟨?_, ?_⟩, by simp⟩, ?_, ?_⟩
    · have empty : {event | event ∈ ([] : List EdgeEvent)} = ∅ := by simp
      rw [empty]
      exact ScopedForest.represents_empty memberIndex (ScopedForest.tier_tracking_new memberIndex)
    · rw [ScopedForest.tier_tracking_new]
      exact stackOk_nil
    · rw [ScopedForest.tier_tracking_new]
      exact live_new none memberIndex
    · rw [ScopedForest.tier_tracking_new]
      exact StackIndexed.nil
  | step before step ih =>
    have moves := DiskForest.step_moves ih.toInvariant step
    obtain ⟨live, indexed⟩ := settled_moves ih moves
    exact ⟨DiskForest.invariant_step ih.toInvariant step, live, indexed⟩
  | opened before encodes layered memberIndex ih =>
    have routes := encodes.routes ih.onDisk
    have indexed := indexed_of_encodes ih encodes
    rw [← layers_fromLayers layered] at routes indexed
    refine ⟨⟨?_, by simp⟩, ?_, ?_⟩
    · rw [ScopedForest.onDisk_iff_routes (ScopedForest.tier_tracking_withBase _ memberIndex)]
      exact routes
    · rw [ScopedForest.tier_tracking_withBase]
      exact live_new _ memberIndex
    · rw [ScopedForest.tier_tracking_withBase]
      exact indexed
  | hydrated before encodes memberIndex ih =>
    have fresh := ScopedForest.tier_tracking_new memberIndex
    have routes := encodes.routes ih.onDisk
    have loaded := hydrated_hydrateAll (ScopedForest.hydrated_nil fresh) routes.stack
    refine ⟨⟨loaded.onDisk routes, by simp⟩, ?_, ?_⟩
    · rw [loaded.base]
      exact fun s x _ => ⟨rfl, rfl⟩
    · rw [loaded.base]
      exact StackIndexed.nil

/-! ## The first layers of a base -/

theorem fromLayers_layers (base : LayeredBase) : LayeredBase.fromLayers base.layers = .ok base := by
  rw [LayeredBase.fromLayers, dif_neg base.nonempty]

/-- A forest whose memtable is folded can be opened again from its layers. -/
theorem reopen (lineage : Lineage events d) {memberIndex : Bool}
    (folded : d.forest.tier = ⟨some base, Memtable.new memberIndex⟩) :
    Lineage events ⟨ScopedForest.withBase base, []⟩ :=
  .opened lineage (.layers folded) (fromLayers_layers base) false

/-- Merging a range of a base right after opening it. -/
theorem mergeRange {newer : List PuffinBase} {slice merged : LayeredBase}
    (lineage : Lineage events ⟨ScopedForest.withBase base, []⟩)
    (current : base.layers = older ++ slice.layers ++ newer)
    (mergedEq : merged.layers = older ++ compactLayers slice :: newer) :
    Lineage events ⟨ScopedForest.withBase merged, []⟩ := by
  have sizes : older.length < older.length + slice.layers.length :=
    Nat.lt_add_of_pos_right (List.length_pos_iff.mpr slice.nonempty)
  have inside : older.length + slice.layers.length ≤ base.layers.length := by
    rw [current]
    simp
  have range : base.slice older.length (older.length + slice.layers.length) = .ok slice := by
    rw [LayeredBase.slice, if_pos inside, ← fromLayers_layers slice, current]
    simp [List.take_append]
  have spliced : base.spliced older.length (older.length + slice.layers.length)
      (compactLayers slice) = .ok merged := by
    rw [LayeredBase.spliced, if_pos ⟨sizes, inside⟩, ← fromLayers_layers merged, mergedEq, current,
      List.append_assoc, List.take_left, ← List.append_assoc, ← List.length_append, List.drop_left]
  have planned := Lineage.step lineage (.plan _ base slice _ _ rfl range)
  have adopted := Lineage.step planned
    (.adopt _ base slice merged (compactLayers slice) _ _ List.mem_cons_self rfl range spliced)
  rw [List.append_nil, List.append_nil] at adopted
  exact adopted.reopen rfl

theorem eq_singleton_of_below {file : PuffinBase} (below : older <+: [file])
    (nonempty : older ≠ []) :
    [file] = older := by
  obtain ⟨newer, same⟩ := below
  rcases List.singleton_eq_append_iff.mp same.symm with ⟨rfl, -⟩ | ⟨rfl, -⟩
  · exact absurd rfl nonempty
  · rfl

/-- The first of the layers of a spliced stack are below the merged file, or go up
to some layer above it. -/
theorem prefix_splice {low high : List PuffinBase} {file : PuffinBase}
    (below : older <+: low ++ file :: high) :
    older <+: low ∨ ∃ within, within <+: high ∧ older = low ++ file :: within := by
  obtain ⟨newer, split⟩ := below
  rcases List.append_eq_append_iff.mp split with ⟨rest, rfl, -⟩ | ⟨rest, rfl, tail⟩
  · exact Or.inl ⟨rest, rfl⟩
  · rcases List.cons_eq_append_iff.mp tail with ⟨rfl, -⟩ | ⟨within, rfl, rfl⟩
    · exact Or.inl ⟨[], by simp⟩
    · exact Or.inr ⟨within, ⟨newer, rfl⟩, rfl⟩

/-- The first layers of a base were once a whole base: every layer was put on top
of those below it, or came from a merge that could have been done before the ones
above it were there. -/
theorem lower (lineage : Lineage events d) (below : older <+: baseLayers d.forest.tier.base)
    (nonempty : older ≠ []) :
    ∃ seen base, base.layers = older ∧ Lineage seen ⟨ScopedForest.withBase base, []⟩ := by
  induction lineage generalizing older with
  | fresh memberIndex =>
    rw [ScopedForest.tier_tracking_new] at below
    exact absurd (List.prefix_nil.mp below) nonempty
  | @step events applied d d' before step ih =>
    have after := Lineage.step before step
    have moves := DiskForest.step_moves before.settled.toInvariant step
    generalize tierEq : d'.forest.tier = t at below moves
    cases moves with
    | evolved evolves =>
      rw [evolves.base_eq] at below
      exact ih below nonempty
    | folded =>
      change older <+: (layerOver _ _).layers at below
      rw [layers_layerOver, List.prefix_concat_iff, ← layers_layerOver] at below
      rcases below with whole | below
      · exact ⟨_, _, whole.symm, after.reopen tierEq⟩
      · exact ih below nonempty
    | rewritten => exact ⟨_, _, eq_singleton_of_below below nonempty, after.reopen tierEq⟩
    | @spliced low high slice base current merged =>
      change older <+: base.layers at below
      rw [merged] at below
      rcases prefix_splice below with under | ⟨within, ⟨newer, rfl⟩, rfl⟩
      · apply ih _ nonempty
        rw [current, List.append_assoc]
        exact under.trans (List.prefix_append _ _)
      · -- the merge could have been done on the part we want
        have part : low ++ slice.layers ++ within <+: baseLayers d.forest.tier.base := by
          rw [current]
          exact ⟨newer, by simp⟩
        obtain ⟨seen, base, layersEq, opened⟩ :=
          ih part (by simp [slice.nonempty])
        exact ⟨seen, ⟨low ++ compactLayers slice :: within, by simp⟩, rfl,
          opened.mergeRange layersEq rfl⟩
  | @opened events d files base before encodes layered memberIndex ih =>
    rw [ScopedForest.tier_tracking_withBase] at below
    change older <+: base.layers at below
    have layersEq := layers_fromLayers layered
    rw [layersEq] at below
    cases encodes with
    | layers folded =>
      apply ih _ nonempty
      rw [folded]
      exact below
    | compacted =>
      exact ⟨_, base, layersEq.trans (eq_singleton_of_below below nonempty),
        .opened before .compacted layered false⟩
  | @hydrated events d files before encodes memberIndex ih =>
    have routes := encodes.routes before.settled.onDisk
    have loaded := hydrated_hydrateAll
      (ScopedForest.hydrated_nil (ScopedForest.tier_tracking_new memberIndex)) routes.stack
    rw [loaded.base] at below
    exact absurd (List.prefix_nil.mp below) nonempty

end Lineage

end Blaze
