import Blaze.Storage.DiskForest

/-!
# Histories of a disk-backed forest

A history interleaves events and queries with delta folds, full folds, failed
folds, and merges that are computed from a range of the stack at one moment and
spliced in at a later one.  The answers are those of a forest that only ever
applied the events in memory.
-/

namespace Blaze

open RootMap LayeredBase

variable {base slice merged : LayeredBase} {start stop : Nat} {events : List EdgeEvent}
  {d : DiskForest} {file : PuffinBase}

namespace ScopedForest

/-- A delta fold that succeeds puts the delta on top of the base. -/
theorem foldDelta_ok (f : ScopedForest LayeredBase) (wellFormed : f.tier.WellFormed) :
    (f.foldDelta fun calls base => (.ok (layerOver base (writeBase calls), ()) :
      Except String (LayeredBase × Unit))).1 =
        f.adopt (layerOver f.tier.base (deltaBase f.tier)) := by
  obtain ⟨compressed, callsEq⟩ := Tier.streamMemtable_spec wellFormed
  have written : writeBase f.tier.streamMemtable.2 = deltaBase f.tier := by
    rw [callsEq]
    rfl
  unfold foldDelta
  dsimp only
  rw [written, compressed.base_eq]
  rfl

/-- Only compressed paths remain of a delta fold that fails. -/
theorem foldDelta_fails (f : ScopedForest LayeredBase) (wellFormed : f.tier.WellFormed)
    (error : String) :
    Tier.CompressedTo f.tier (f.foldDelta fun _ _ =>
      (.error error : Except String (LayeredBase × Unit))).1.tier :=
  (Tier.streamMemtable_spec wellFormed).1

/-- A full fold that succeeds rewrites the base. -/
theorem compactAndFold_ok (f : ScopedForest LayeredBase) (wellFormed : f.tier.WellFormed) :
    (f.compactAndFold fun calls => (.ok (LayeredBase.new (writeBase calls), ()) :
      Except String (LayeredBase × Unit))).1 = f.adopt (LayeredBase.new (fullBase f.tier)) := by
  have written : writeBase f.tier.compactLocked.2 = fullBase f.tier := by
    rw [(Tier.compactLocked_spec wellFormed).2]
    rfl
  unfold compactAndFold compactInto
  dsimp only
  rw [written]
  rfl

/-- Only compressed paths remain of a full fold that fails. -/
theorem compactAndFold_fails (f : ScopedForest LayeredBase) (wellFormed : f.tier.WellFormed)
    (error : String) :
    Tier.CompressedTo f.tier (f.compactAndFold fun _ =>
      (.error error : Except String (LayeredBase × Unit))).1.tier :=
  (Tier.compactLocked_spec wellFormed).1

end ScopedForest

/-- Fold the memtable of a forest into a delta layer. -/
def foldedDelta (f : ScopedForest LayeredBase) : ScopedForest LayeredBase :=
  (f.foldDelta fun calls base =>
    (.ok (layerOver base (writeBase calls), ()) : Except String (LayeredBase × Unit))).1

/-- A disk-backed forest with the merges computed so far but not yet spliced
in: for each, the layers it read and the file it wrote. -/
structure DiskForest where
  forest : ScopedForest LayeredBase
  planned : List (LayeredBase × PuffinBase)

namespace DiskForest

def new : DiskForest :=
  ⟨ScopedForest.new, []⟩

/-- One step of a history, with the events it applies. -/
inductive Step : DiskForest → List EdgeEvent → DiskForest → Prop
  | apply (d : DiskForest) (event : EdgeEvent) :
      Step d [event] { d with forest := d.forest.apply event }
  | query (d : DiskForest) (s : ScopeId) (x : NodeId) :
      Step d [] { d with forest := (d.forest.scopeRoot s x).1 }
  | foldDelta (d : DiskForest) :
      Step d [] { d with
        forest := (d.forest.foldDelta fun calls base =>
          (.ok (layerOver base (writeBase calls), ()) : Except String (LayeredBase × Unit))).1 }
  | compactAndFold (d : DiskForest) :
      Step d [] { d with
        forest := (d.forest.compactAndFold fun calls =>
          (.ok (LayeredBase.new (writeBase calls), ()) : Except String (LayeredBase × Unit))).1 }
  | foldDeltaFails (d : DiskForest) (error : String) :
      Step d [] { d with
        forest := (d.forest.foldDelta fun _ _ =>
          (.error error : Except String (LayeredBase × Unit))).1 }
  | compactAndFoldFails (d : DiskForest) (error : String) :
      Step d [] { d with
        forest := (d.forest.compactAndFold fun _ =>
          (.error error : Except String (LayeredBase × Unit))).1 }
  | plan (d : DiskForest) (base slice : LayeredBase) (start stop : Nat)
      (current : d.forest.tier.base = some base) (range : base.slice start stop = .ok slice) :
      Step d [] { d with planned := (slice, compactLayers slice) :: d.planned }
  | adopt (d : DiskForest) (base slice merged : LayeredBase) (file : PuffinBase)
      (start stop : Nat) (pending : (slice, file) ∈ d.planned)
      (current : d.forest.tier.base = some base) (range : base.slice start stop = .ok slice)
      (spliced : base.spliced start stop file = .ok merged) :
      Step d [] { d with forest := d.forest.swapBase merged }

/-- The states a fresh forest can reach, with the events applied on the way. -/
inductive History : List EdgeEvent → DiskForest → Prop
  | start : History [] new
  | step {events : List EdgeEvent} {d d' : DiskForest} {applied : List EdgeEvent}
      (before : History events d) (step : Step d applied d') : History (events ++ applied) d'

/-- The forest represents the events, and every planned file is the merge of the
layers it read. -/
structure Invariant (events : List EdgeEvent) (d : DiskForest) : Prop where
  onDisk : d.forest.OnDisk {event | event ∈ events}
  planned : ∀ merge ∈ d.planned, merge.2 = compactLayers merge.1

/-- Every proper range of a stack can be sliced. -/
theorem exists_slice (proper : start < stop) (inside : stop ≤ base.layers.length) :
    ∃ slice, base.slice start stop = .ok slice := by
  have nonempty : (base.layers.take stop).drop start ≠ [] := by
    rw [← List.length_pos_iff, List.length_drop, List.length_take, Nat.min_eq_left inside]
    exact Nat.sub_pos_of_lt proper
  exact ⟨⟨_, nonempty⟩, by rw [LayeredBase.slice, if_pos inside, fromLayers, dif_neg nonempty]⟩

/-- A successful slice cuts the stack in three. -/
theorem layers_of_slice (range : base.slice start stop = .ok slice) :
    base.layers = base.layers.take start ++ slice.layers ++ base.layers.drop stop := by
  unfold LayeredBase.slice LayeredBase.fromLayers at range
  split at range
  · split at range
    · cases range
    · next nonempty =>
        cases range
        have proper : start ≤ stop := by
          by_contra backwards
          apply nonempty
          rw [List.drop_eq_nil_iff, List.length_take]
          exact (Nat.min_le_left _ _).trans (Nat.le_of_not_le backwards)
        have head : base.layers.take stop =
            base.layers.take start ++ (base.layers.take stop).drop start := by
          conv_lhs => rw [← List.take_append_drop start (base.layers.take stop)]
          rw [List.take_take, Nat.min_eq_left proper]
        dsimp only
        rw [← head, List.take_append_drop]
  · cases range

theorem layers_of_spliced (spliced : base.spliced start stop file = .ok merged) :
    merged.layers = base.layers.take start ++ file :: base.layers.drop stop := by
  unfold LayeredBase.spliced LayeredBase.fromLayers at spliced
  split at spliced
  · split at spliced
    · cases spliced
    · cases spliced
      rfl
  · cases spliced

/-- What a successful slice and splice of one range say about the layers. -/
theorem layers_of_range (range : base.slice start stop = .ok slice)
    (spliced : base.spliced start stop file = .ok merged) :
    base.layers = base.layers.take start ++ slice.layers ++ base.layers.drop stop ∧
      merged.layers = base.layers.take start ++ file :: base.layers.drop stop :=
  ⟨layers_of_slice range, layers_of_spliced spliced⟩

/-- Compressing paths keeps the invariant. -/
theorem Invariant.of_compressed (invariant : Invariant events d) {f : ScopedForest LayeredBase}
    (compressed : Tier.CompressedTo d.forest.tier f.tier) :
    Invariant events { d with forest := f } :=
  ⟨invariant.onDisk.of_compressed compressed, invariant.planned⟩

/-- A planned merge replaces its range of the current base. -/
theorem Invariant.layers_of_adopt (invariant : Invariant events d)
    (pending : (slice, file) ∈ d.planned) (current : d.forest.tier.base = some base)
    (range : base.slice start stop = .ok slice)
    (spliced : base.spliced start stop file = .ok merged) :
    baseLayers d.forest.tier.base =
        base.layers.take start ++ slice.layers ++ base.layers.drop stop ∧
      merged.layers = base.layers.take start ++ compactLayers slice :: base.layers.drop stop := by
  rw [current, ← show file = compactLayers slice from invariant.planned (slice, file) pending]
  exact layers_of_range range spliced

theorem invariant_step {applied : List EdgeEvent} {d' : DiskForest} (invariant : Invariant events d)
    (step : Step d applied d') : Invariant (events ++ applied) d' := by
  have onDisk := invariant.onDisk
  have wellFormed := onDisk.represents.wellFormed
  cases step with
  | apply event =>
    have grown : {e | e ∈ events ++ [event]} = insert event {e | e ∈ events} := by
      ext e
      simp [or_comm]
    refine ⟨?_, invariant.planned⟩
    rw [grown]
    exact onDisk.apply event
  | query s x =>
    rw [List.append_nil]
    exact invariant.of_compressed (ScopedForest.scopeRoot_compressed d.forest wellFormed s x).1
  | foldDelta =>
    rw [List.append_nil, ScopedForest.foldDelta_ok d.forest wellFormed]
    exact ⟨ScopedForest.onDisk_delta onDisk, invariant.planned⟩
  | compactAndFold =>
    rw [List.append_nil, ScopedForest.compactAndFold_ok d.forest wellFormed]
    exact ⟨ScopedForest.onDisk_full onDisk.represents, invariant.planned⟩
  | foldDeltaFails error =>
    rw [List.append_nil]
    exact invariant.of_compressed (d.forest.foldDelta_fails wellFormed error)
  | compactAndFoldFails error =>
    rw [List.append_nil]
    exact invariant.of_compressed (d.forest.compactAndFold_fails wellFormed error)
  | plan base slice start stop current range =>
    rw [List.append_nil]
    refine ⟨onDisk, fun merge member => ?_⟩
    rcases List.mem_cons.mp member with rfl | older
    · rfl
    · exact invariant.planned merge older
  | adopt base slice merged file start stop pending current range spliced =>
    rw [List.append_nil]
    obtain ⟨layersEq, mergedEq⟩ := invariant.layers_of_adopt pending current range spliced
    exact ⟨ScopedForest.onDisk_swapBase onDisk layersEq mergedEq, invariant.planned⟩

theorem History.invariant (history : History events d) : Invariant events d := by
  induction history with
  | start =>
    refine ⟨⟨?_, stackOk_nil⟩, by simp [new]⟩
    simpa [new] using ScopedForest.represents_new
  | step before step ih => exact invariant_step ih step

/-- At every moment of every history the disk-backed forest gives the answers of
a forest that applied the same events in memory only. -/
theorem scopeRoot_eq_inMemory {events : List EdgeEvent} {d : DiskForest}
    (history : History events d) (s : ScopeId) (x : NodeId) :
    (d.forest.scopeRoot s x).2 =
      ((events.foldl ScopedForest.apply
        (ScopedForest.new : ScopedForest LayeredBase)).scopeRoot s x).2 := by
  have inMemory := ScopedForest.represents_foldl_apply events ScopedForest.new
    (ScopedForest.represents_new (β := LayeredBase))
  rw [Set.empty_union] at inMemory
  exact history.invariant.onDisk.represents.scopeRoot_eq inMemory s x

/-- A merge of all layers can be spliced in after one more event was folded on top of
them. -/
theorem History.spliceLate (history : History events d)
    (onDisk : d.forest.tier.base = some base) (event : EdgeEvent) :
    ∃ merged, merged.layers.length = 2 ∧ History (events ++ [event])
      ⟨(foldedDelta (d.forest.apply event)).swapBase merged,
        (base, compactLayers base) :: d.planned⟩ := by
  have whole : base.slice 0 base.layers.length = .ok base := by
    rw [LayeredBase.slice, if_pos le_rfl, List.take_length, List.drop_zero, fromLayers,
      dif_neg base.nonempty]
  have applied := (history.step (.plan d base base 0 _ onDisk whole)).step (.apply _ event)
  have current : (foldedDelta (d.forest.apply event)).tier.base =
      some (base.pushed (ScopedForest.deltaBase (d.forest.apply event).tier)) := by
    unfold foldedDelta
    rw [ScopedForest.foldDelta_ok _ applied.invariant.onDisk.represents.wellFormed]
    change some (layerOver (d.forest.apply event).tier.base _) = _
    rw [ScopedForest.apply_base _ history.invariant.onDisk.represents, onDisk]
    rfl
  generalize ScopedForest.deltaBase (d.forest.apply event).tier = delta at current
  have inside : base.layers.length ≤ (base.pushed delta).layers.length := by
    simp [LayeredBase.pushed]
  have range : (base.pushed delta).slice 0 base.layers.length = .ok base := by
    rw [LayeredBase.slice, if_pos inside]
    simp [LayeredBase.pushed, fromLayers, base.nonempty]
  have spliced : (base.pushed delta).spliced 0 base.layers.length (compactLayers base) =
      .ok ⟨[compactLayers base, delta], by simp⟩ := by
    rw [LayeredBase.spliced, if_pos ⟨List.length_pos_iff.mpr base.nonempty, inside⟩]
    simp [LayeredBase.pushed, fromLayers]
  refine ⟨⟨[compactLayers base, delta], by simp⟩, rfl, ?_⟩
  have adopted := (applied.step (.foldDelta _)).step
    (.adopt _ _ base _ _ 0 _ List.mem_cons_self current range spliced)
  simp only [List.append_nil] at adopted
  exact adopted

/-- Two layers are merged while a third is folded on top of them. -/
theorem scopeRoot_eq_inMemory_splicedLate :
    let folded := foldedDelta ((foldedDelta (ScopedForest.new.apply
      ⟨4, 2, .scopedTo [7], 0, none⟩)).apply ⟨2, 1, .global, 0, none⟩)
    folded.tier.base.map (fun base => base.layers.length) = some 2 ∧
      ∃ merged, merged.layers.length = 2 ∧
        (((foldedDelta (folded.apply ⟨5, 4, .scopedTo [7], 0, none⟩)).swapBase merged).scopeRoot
          7 5).2 = 1 := by
  intro folded
  have past : History [⟨4, 2, .scopedTo [7], 0, none⟩, ⟨2, 1, .global, 0, none⟩] ⟨folded, []⟩ :=
    .step (.step (.step (.step .start (.apply _ _)) (.foldDelta _)) (.apply _ _)) (.foldDelta _)
  have two : folded.tier.base.map (fun base => base.layers.length) = some 2 := by
    decide +kernel
  obtain ⟨base, onDisk, -⟩ := Option.map_eq_some_iff.mp two
  obtain ⟨merged, length, history⟩ := past.spliceLate onDisk ⟨5, 4, .scopedTo [7], 0, none⟩
  exact ⟨two, merged, length, (scopeRoot_eq_inMemory history 7 5).trans (by decide +kernel)⟩

end DiskForest

end Blaze
