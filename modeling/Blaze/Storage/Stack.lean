import Blaze.Lib.Fallible
import Blaze.Storage.Flush

/-!
# Stacks of runs

What the catalog says about a stack follows from what it says about the runs in
it: a commit appends one run to a described stack, and a merge replaces a window
of it by one run with the same span.
-/

namespace Blaze

open List Fallible

variable {α : Type} {runs older : List LocalRun} {listed : List RunMeta} {run newest : LocalRun}
  {layers : LocalLayers} {range : RunRange} {sequence : Nat}

/-! ## Runs the catalog describes -/

/-- Each run is committed, and the catalog lists it. -/
def Described (runs : List LocalRun) (listed : List RunMeta) : Prop :=
  List.Forall₂ (fun run described => run.committedMeta? = some described) runs listed

theorem mapM_committedMeta?_iff :
    runs.mapM LocalRun.committedMeta? = some listed ↔ Described runs listed :=
  mapM_eq_some_iff

theorem committedMeta?_eq_some_iff {described : RunMeta} :
    run.committedMeta? = some described ↔
      run.remote = some described.path ∧ described = run.toMeta described.path := by
  unfold LocalRun.committedMeta?
  rw [Option.map_eq_some_iff]
  constructor
  · rintro ⟨path, committed, rfl⟩
    exact ⟨committed, rfl⟩
  · rintro ⟨committed, same⟩
    exact ⟨described.path, committed, same.symm⟩

namespace Described

variable {runs older newer : List LocalRun} {listed below above : List RunMeta}

theorem length_eq (described : Described runs listed) : runs.length = listed.length :=
  List.Forall₂.length_eq described

theorem append (first : Described older below) (second : Described newer above) :
    Described (older ++ newer) (below ++ above) :=
  rel_append first second

section Described

variable (described : Described runs listed)

include described

theorem take (n : Nat) : Described (runs.take n) (listed.take n) :=
  forall₂_take n described

theorem drop (n : Nat) : Described (runs.drop n) (listed.drop n) :=
  forall₂_drop n described

theorem head? (isFirst : runs.head? = some run) :
    ∃ first, listed.head? = some first ∧ run.committedMeta? = some first := by
  cases described with
  | nil => cases isFirst
  | cons same others =>
    cases isFirst
    exact ⟨_, rfl, same⟩

theorem getLast? (isLast : runs.getLast? = some run) :
    ∃ last, listed.getLast? = some last ∧ run.committedMeta? = some last := by
  rw [← head?_reverse] at isLast
  rw [← head?_reverse]
  exact head? (forall₂_reverse_iff.mpr described) isLast

theorem isSome (member : run ∈ runs) : run.remote.isSome := by
  rcases mem_iff_getElem.mp member with ⟨i, inside, rfl⟩
  have same := List.Forall₂.get described inside (by rwa [← described.length_eq])
  rw [committedMeta?_eq_some_iff] at same
  change (runs.get ⟨i, inside⟩).remote.isSome = true
  rw [same.1]
  rfl

end Described

theorem fullyCommitted (described : Described layers.runs listed) : layers.fullyCommitted = true :=
  all_eq_true.mpr fun _ member => described.isSome member

end Described

/-- A stack with a run that is on this worker's disk only is not in the
catalog. -/
theorem LocalLayers.not_fullyCommitted (runs : layers.runs = older ++ [newest])
    (uncommitted : newest.remote = none) : layers.fullyCommitted = false := by
  unfold fullyCommitted
  rw [runs]
  simp [uncommitted]

/-- A committed stack under one new run is listed with the run at its object. -/
theorem LocalLayers.runMetas_eq (runs : layers.runs = older ++ [newest])
    (uncommitted : newest.remote = none) (described : Described older listed) (path : ObjectPath) :
    layers.runMetas path = some (listed ++ [newest.toMeta path]) := by
  unfold runMetas
  rw [runs, getLast?_concat, dropLast_concat, mapM_committedMeta?_iff.mpr described]
  change some (listed ++ [newest.toMeta (newest.remote.getD path)]) = _
  rw [uncommitted]
  rfl

/-- Once the commit has landed, the catalog describes the whole stack. -/
theorem LocalLayers.described_markCommitted (runs : layers.runs = older ++ [newest])
    (described : Described older listed) (path : ObjectPath) :
    Described (layers.markCommitted path).runs (listed ++ [newest.toMeta path]) := by
  unfold markCommitted
  rw [runs, getLast?_concat, dropLast_concat]
  exact described.append (.cons rfl .nil)

/-- Pairing a run set with the local files gives a stack it describes. -/
theorem described_zip {paths : List LocalPath} (lengths : listed.length = paths.length) :
    Described ((listed.zip paths).map fun entry => LocalRun.committed entry.1 entry.2) listed := by
  induction listed generalizing paths with
  | nil => exact .nil
  | cons run listed ih =>
    cases paths with
    | nil => cases lengths
    | cons path paths => exact .cons rfl (ih (by simpa using lengths))

theorem described_cached (listed : List RunMeta) :
    Described (listed.map fun run => LocalRun.committed run (.cached run)) listed := by
  induction listed with
  | nil => exact .nil
  | cons run listed ih => exact .cons rfl ih

/-! ## Windows -/

/-- The runs of a window. -/
def RunRange.window {α : Type} (range : RunRange) (items : List α) : List α :=
  (items.take range.stop).drop range.start

theorem RunRange.take_window_drop (proper : range.start ≤ range.stop) (items : List α) :
    items = items.take range.start ++ range.window items ++ items.drop range.stop := by
  have head : items.take range.stop = items.take range.start ++ range.window items := by
    unfold window
    conv_lhs => rw [← take_append_drop range.start (items.take range.stop)]
    rw [take_take, Nat.min_eq_left proper]
  rw [← head, take_append_drop]

theorem RunRange.mem_of_mem_window {items : List α} {item : α}
    (member : item ∈ range.window items) :
    item ∈ items :=
  mem_of_mem_take (mem_of_mem_drop member)

theorem RunRange.window_ne_nil {items : List α} {min : Nat} (within : range.Within min items.length)
    (positive : 0 < min) : range.window items ≠ [] := by
  unfold Within at within
  apply ne_nil_of_length_pos
  unfold window
  rw [length_drop, length_take]
  omega

namespace RunRange

variable {α β : Type} {range other : RunRange}

theorem map_window (f : α → β) (range : RunRange) (items : List α) :
    (range.window items).map f = range.window (items.map f) := by
  unfold window
  rw [map_drop, map_take]

/-- A window that ends below the newest item is one of the older items. -/
theorem window_concat {items : List α} (item : α) (below : range.stop ≤ items.length) :
    range.window (items ++ [item]) = range.window items := by
  unfold window
  rw [take_append_of_le_length below]

/-- Any other window contains the newest item. -/
theorem mem_window_concat {items : List α} {item : α}
    (within : range.Within 1 (items ++ [item]).length) (reaches : ¬ range.stop ≤ items.length) :
    item ∈ range.window (items ++ [item]) := by
  unfold Within at within
  rw [length_append, length_singleton] at within
  unfold window
  rw [take_of_length_le (by simp; omega), drop_append_of_le_length (by omega)]
  exact mem_append_right _ (mem_singleton_self item)

/-- Items that are all different tell their windows apart. -/
theorem eq_of_window_eq {items : List α} (distinct : items.Nodup)
    (within : range.Within 1 items.length) (within' : other.Within 1 items.length)
    (same : range.window items = other.window items) : range = other := by
  unfold Within at within within'
  have lengths := congrArg List.length same
  have heads := congrArg List.head? same
  unfold window at lengths heads
  rw [length_drop, length_drop, length_take, length_take] at lengths
  rw [head?_drop, head?_drop, getElem?_take_of_lt (by omega),
    getElem?_take_of_lt (by omega)] at heads
  have inside : range.start < items.length := by omega
  have starts : range.start = other.start := (getElem?_inj inside distinct).mp heads
  rcases range with ⟨start, stop⟩
  rcases other with ⟨start', stop'⟩
  dsimp only at *
  congr 1
  omega

end RunRange

theorem Described.window (described : Described runs listed) (range : RunRange) :
    Described (range.window runs) (range.window listed) :=
  (described.take range.stop).drop range.start

/-- A located window is one whose files are the ones that were asked for. -/
theorem locateRunWindow_spec {inputs : List LocalPath}
    (located : locateRunWindow runs inputs = some range) :
    range.Within 1 runs.length ∧ (range.window runs).map LocalRun.path = inputs := by
  unfold locateRunWindow at located
  split at located
  · cases located
  · next proper =>
      rcases Option.map_eq_some_iff.mp located with ⟨start, found, rfl⟩
      have inside := mem_of_find?_eq_some found
      have matched := find?_some found
      rw [mem_range] at inside
      rw [decide_eq_true_eq] at matched
      simp only [not_or, List.isEmpty_iff, not_lt] at proper
      have some : 0 < inputs.length := length_pos_of_ne_nil proper.1
      constructor
      · change start + 1 ≤ start + inputs.length ∧ start + inputs.length ≤ runs.length
        omega
      · unfold RunRange.window
        rw [drop_take, Nat.add_sub_cancel_left]
        exact matched

/-! ## Layers -/

/-- One run per layer. -/
def LocalLayers.Aligned (layers : LocalLayers) : Prop :=
  layers.base.layers.length = layers.runs.length

theorem fromLayers_of_ne_nil {layers : List PuffinBase} (nonempty : layers ≠ []) :
    LayeredBase.fromLayers layers = .ok ⟨layers, nonempty⟩ :=
  dif_neg nonempty

/-- Any window of the runs can be cut out of the layers. -/
theorem LocalLayers.Aligned.slice (aligned : layers.Aligned)
    (within : range.Within 1 layers.runs.length) :
    ∃ slice, layers.base.slice range.start range.stop = .ok slice ∧
      slice.layers = range.window layers.base.layers := by
  unfold RunRange.Within at within
  unfold LocalLayers.Aligned at aligned
  unfold LayeredBase.slice
  rw [if_pos (by omega), fromLayers_of_ne_nil]
  · exact ⟨_, rfl, rfl⟩
  · exact RunRange.window_ne_nil (by rw [aligned]; exact within) Nat.one_pos

/-- Any window of the runs can be replaced in the layers. -/
theorem LocalLayers.Aligned.spliced (aligned : layers.Aligned)
    (within : range.Within 1 layers.runs.length) (file : PuffinBase) :
    ∃ spliced, layers.base.spliced range.start range.stop file = .ok spliced ∧
      spliced.layers =
        layers.base.layers.take range.start ++ file :: layers.base.layers.drop range.stop := by
  unfold RunRange.Within at within
  unfold LocalLayers.Aligned at aligned
  unfold LayeredBase.spliced
  rw [if_pos (by omega), fromLayers_of_ne_nil (by simp)]
  exact ⟨_, rfl, rfl⟩

/-! ## Spans -/

theorem contiguous_append_iff {below above : List RunMeta} :
    Contiguous (below ++ above) ↔ Contiguous below ∧ Contiguous above ∧
      ∀ last ∈ below.getLast?, ∀ first ∈ above.head?,
        last.maxSequence + 1 = first.minSequence := by
  constructor
  · intro contiguous
    rcases isChain_append.mp contiguous.adjacent with ⟨left, right, join⟩
    exact ⟨⟨fun run member => contiguous.forwards run (mem_append_left _ member), left⟩,
      ⟨fun run member => contiguous.forwards run (mem_append_right _ member), right⟩, join⟩
  · rintro ⟨left, right, join⟩
    refine ⟨fun run member => ?_, isChain_append.mpr ⟨left.adjacent, right.adjacent, join⟩⟩
    rcases mem_append.mp member with inBelow | inAbove
    · exact left.forwards run inBelow
    · exact right.forwards run inAbove

theorem contiguous_singleton {run : RunMeta} (forwards : run.minSequence ≤ run.maxSequence) :
    Contiguous [run] :=
  ⟨by simpa using forwards, isChain_singleton run⟩

/-- No run of contiguous spans begins above the last one's end. -/
theorem Contiguous.min_le_last {runs : List RunMeta} (contiguous : Contiguous runs)
    {run last : RunMeta} (member : run ∈ runs) (isLast : runs.getLast? = some last) :
    run.minSequence ≤ last.maxSequence := by
  have inRuns := mem_of_getLast? isLast
  have forwards := contiguous.forwards last inRuns
  rw [← dropLast_append_getLast? last isLast, mem_append] at member
  have ascending := contiguous.ascending
  rw [← dropLast_append_getLast? last isLast, pairwise_append] at ascending
  rcases member with earlier | same
  · exact (ascending.2.2 run earlier last (mem_singleton_self last)).trans forwards
  · rw [mem_singleton.mp same]
    exact forwards

/-- A run with the span of a window can stand for it. -/
theorem Contiguous.splice {below window above : List RunMeta} {first last : RunMeta}
    (contiguous : Contiguous (below ++ window ++ above)) (isFirst : window.head? = some first)
    (isLast : window.getLast? = some last) (merged : RunMeta)
    (min : merged.minSequence = first.minSequence) (max : merged.maxSequence = last.maxSequence) :
    Contiguous (below ++ merged :: above) := by
  rw [contiguous_append_iff, contiguous_append_iff] at contiguous
  rcases contiguous with ⟨⟨left, middle, join⟩, right, join'⟩
  have forwards := middle.min_le_last (mem_of_head? isFirst) isLast
  have one : Contiguous [merged] := contiguous_singleton (by omega)
  rw [← singleton_append, contiguous_append_iff, contiguous_append_iff]
  refine ⟨left, ⟨one, right, ?_⟩, ?_⟩
  · rintro run ⟨rfl⟩ next isNext
    change merged.maxSequence + 1 = next.minSequence
    rw [max]
    refine join' last ?_ next isNext
    rw [getLast?_append, isLast]
    rfl
  · rintro run isRun next ⟨rfl⟩
    rw [min]
    exact join run isRun first isFirst

/-- Extending the newest run keeps the spans contiguous. -/
theorem Contiguous.extendNewest {runs extended : List RunMeta} (contiguous : Contiguous runs)
    (below : ∀ newest ∈ runs.getLast?, newest.maxSequence ≤ sequence)
    (made : extendNewest runs sequence = some extended) :
    extended ≠ [] ∧ Contiguous extended ∧ EndsAt extended sequence := by
  rcases Option.map_eq_some_iff.mp made with ⟨newest, isLast, rfl⟩
  rw [← dropLast_append_getLast? newest isLast, contiguous_append_iff] at contiguous
  rcases contiguous with ⟨left, middle, join⟩
  have forwards := middle.forwards newest (mem_singleton_self newest)
  refine ⟨by simp, ?_, ?_⟩
  · rw [contiguous_append_iff]
    refine ⟨left, contiguous_singleton (forwards.trans (below newest isLast)), ?_⟩
    rintro last wasLast next ⟨rfl⟩
    exact join last wasLast newest rfl
  · intro last wasLast
    rw [getLast?_concat] at wasLast
    cases wasLast
    rfl

theorem length_extendNewest {runs extended : List RunMeta}
    (made : extendNewest runs sequence = some extended) : extended.length = runs.length := by
  rcases Option.map_eq_some_iff.mp made with ⟨newest, isLast, rfl⟩
  have nonempty : runs ≠ [] := by
    rintro rfl
    cases isLast
  have positive := length_pos_of_ne_nil nonempty
  simp
  omega

/-- A merge publishes one run less than the window it replaces is long. -/
theorem length_spliceRunSet {merged : RunMeta} {spliced : List RunMeta}
    (made : spliceRunSet runs range merged sequence = some spliced) :
    spliced.length = (runs.take range.start).length + ((runs.drop range.stop).length + 1) := by
  unfold spliceRunSet at made
  rcases Option.bind_eq_some_iff.mp made with ⟨below, first, rest⟩
  rcases Option.bind_eq_some_iff.mp rest with ⟨above, second, extended⟩
  rw [length_extendNewest extended, length_append, length_cons,
    Described.length_eq (mapM_committedMeta?_iff.mp first),
    Described.length_eq (mapM_committedMeta?_iff.mp second)]

/-- The run set a merge publishes over a described stack. -/
theorem spliceRunSet_eq (described : Described runs listed) (range : RunRange) (merged : RunMeta)
    (sequence : Nat) :
    spliceRunSet runs range merged sequence =
      extendNewest (listed.take range.start ++ merged :: listed.drop range.stop) sequence := by
  unfold spliceRunSet
  rw [mapM_committedMeta?_iff.mpr (described.take range.start),
    mapM_committedMeta?_iff.mpr (described.drop range.stop)]
  rfl

end Blaze
