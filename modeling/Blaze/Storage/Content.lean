import Blaze.Storage.DiskForest
import Blaze.Storage.Stack
import Blaze.Storage.TickSteps

/-!
# What the files of a stack hold

The forest of a worker serves from the files of its stack and from its memtable.
A fold moves what the memtable holds into a file, and a merge replaces a window
of the stack by one file that holds the same; neither changes what the forest
answers, and after a fold the files alone answer as the forest does.
-/

namespace Blaze

variable {forest forest' : ScopedForest LayeredBase} {sequence start stop : Nat} {file : PuffinBase}
  {events : Set EdgeEvent} {next current : LocalLayers} {layer : Layer} {base : LayeredBase}

/-! ## Folds -/

/-- A fold writes a file over which an empty memtable answers as before. -/
theorem FoldWrites.onDisk {layers : Option LocalLayers} (onDisk : forest.OnDisk events)
    (base : forest.tier.base = layers.map LocalLayers.base)
    (written : FoldWrites forest sequence layers forest' next file layer) :
    forest'.OnDisk events ∧ forest'.tier.base = some next.base ∧
      Routes next.base.layers events ∧ next.base.layers.getLast? = some file := by
  have wellFormed := onDisk.represents.wellFormed
  cases written with
  | rebuilt unsettled streamed inherits =>
    have full : file = ScopedForest.fullBase forest.tier := by
      rw [streamed, (Tier.compactLocked_spec wellFormed).2]
      rfl
    subst full
    have folded := ScopedForest.onDisk_full onDisk.represents
    exact ⟨folded, rfl, ScopedForest.onDisk_adopt_iff.mp folded, rfl⟩
  | @layered current _ _ committed streamed =>
    have delta : file = ScopedForest.deltaBase forest.tier := by
      rw [streamed, (Tier.streamMemtable_spec wellFormed).2]
      rfl
    subst delta
    have folded := ScopedForest.onDisk_delta onDisk
    rw [base] at folded
    exact ⟨folded, rfl, ScopedForest.onDisk_adopt_iff.mp folded, List.getLast?_concat⟩

/-- A fold that fails leaves compressed paths only. -/
theorem ScopedForest.OnDisk.attempt (onDisk : forest.OnDisk events) {tier : Tier LayeredBase}
    (attempt : tier = forest.tier.compactLocked.1 ∨ tier = forest.tier.streamMemtable.1) :
    (forest.setTier tier).OnDisk events ∧ tier.base = forest.tier.base := by
  have wellFormed := onDisk.represents.wellFormed
  rcases attempt with rfl | rfl
  · have compressed := (Tier.compactLocked_spec wellFormed).1
    exact ⟨onDisk.setTier compressed, compressed.base_eq⟩
  · have compressed := (Tier.streamMemtable_spec wellFormed).1
    exact ⟨onDisk.setTier compressed, compressed.base_eq⟩

/-- The file that a worker without a directory writes holds the whole map. -/
theorem ScopedForest.OnDisk.routes_compact (onDisk : forest.OnDisk events) :
    Routes [writeBase forest.tier.compactLocked.2] events := by
  have wellFormed := onDisk.represents.wellFormed
  have full : writeBase forest.tier.compactLocked.2 = fullBase forest.tier := by
    rw [(Tier.compactLocked_spec wellFormed).2]
    rfl
  rw [full]
  exact onDisk_adopt_iff.mp (onDisk_full onDisk.represents)

/-! ## Merges -/

theorem slice_layers {slice : LayeredBase} (sliced : base.slice start stop = .ok slice) :
    slice.layers = (base.layers.take stop).drop start := by
  unfold LayeredBase.slice LayeredBase.fromLayers at sliced
  split at sliced
  · split at sliced
    · cases sliced
    · cases sliced
      rfl
  · cases sliced

theorem spliced_layers {spliced : LayeredBase} (made : base.spliced start stop file = .ok spliced) :
    spliced.layers = base.layers.take start ++ file :: base.layers.drop stop := by
  unfold LayeredBase.spliced LayeredBase.fromLayers at made
  split at made
  · split at made
    · cases made
    · cases made
      rfl
  · cases made

/-- Wherever the stack holds the files the merge was planned over, its layers are
the ones the merge reads, and a merge that has finished wrote their
compaction. -/
structure PendingMerge.Reads (layers : Option LocalLayers) (pending : PendingMerge) : Prop where
  merged : ∀ file, pending.finished = some (.ok file) → file = compactLayers pending.stack
  found : ∀ current ∈ layers, ∀ range : RunRange, range.Within 1 current.runs.length →
    range.window (current.runs.map LocalRun.path) = pending.inputs →
    range.window current.base.layers = pending.stack.layers

/-- A merge about to be published wrote the compaction of the layers it
replaces. -/
structure Publication.Sound (publication : Publication) : Prop where
  merged : publication.file = compactLayers publication.pending.stack
  window : publication.range.window publication.current.base.layers =
    publication.pending.stack.layers

namespace PendingMerge.Reads

variable {layers : Option LocalLayers} {pending : PendingMerge}

/-- A new file is not among those the merge was planned over. -/
theorem foldWrites (reads : pending.Reads layers) (aligned : ∀ current ∈ layers, current.Aligned)
    (written : FoldWrites forest sequence layers forest' next file layer)
    (unplanned : ∀ compact, LocalPath.folded sequence compact ∉ pending.inputs) :
    pending.Reads (some next) := by
  refine ⟨reads.merged, ?_⟩
  rintro _ ⟨rfl⟩ range within inputs
  cases written with
  | rebuilt unsettled streamed inherits =>
    exfalso
    apply unplanned true
    rw [← inputs]
    change LocalPath.folded sequence true ∈ range.window ([] ++ [LocalPath.folded sequence true])
    apply RunRange.mem_window_concat within
    unfold RunRange.Within at within
    rw [List.length_nil]
    omega
  | @layered current _ _ committed streamed =>
    by_cases below : range.stop ≤ current.runs.length
    · have same := aligned current rfl
      unfold LocalLayers.Aligned at same
      have old : range.window (current.base.pushed file).layers =
          range.window current.base.layers := RunRange.window_concat file (by omega)
      rw [old]
      apply reads.found current rfl
      · unfold RunRange.Within at within ⊢
        exact ⟨within.1, below⟩
      · rw [← inputs, List.map_append]
        exact (RunRange.window_concat _ (by rw [List.length_map]; exact below)).symm
    · exfalso
      apply unplanned false
      rw [← inputs, List.map_append]
      apply RunRange.mem_window_concat
      · simpa using within
      · rw [List.length_map]
        exact below

/-- A merge just planned reads the layers of its window. -/
theorem planned {w : Worker} {range : RunRange} (plan : w.Planned pending current range sequence)
    (distinct : (current.runs.map LocalRun.path).Nodup) : pending.Reads w.layers := by
  constructor
  · intro file finished
    rw [plan.finished] at finished
    cases finished
  · intro held isHeld other within inputs
    rw [plan.layers] at isHeld
    cases isHeld
    rw [plan.inputs] at inputs
    change _ = (range.window current.runs).map LocalRun.path at inputs
    rw [RunRange.map_window] at inputs
    have same : other = range := by
      apply RunRange.eq_of_window_eq distinct
      · rwa [List.length_map]
      · rw [List.length_map]
        exact ⟨(Nat.le_succ _).trans plan.within.1, plan.within.2⟩
      · exact inputs
    rw [same, slice_layers plan.sliced]
    rfl

/-- Committing the newest run renames no file. -/
theorem markCommitted (reads : pending.Reads (some current)) (path : ObjectPath) :
    pending.Reads (some (current.markCommitted path)) := by
  have renamed : (current.markCommitted path).runs.map LocalRun.path =
      current.runs.map LocalRun.path := by
    unfold LocalLayers.markCommitted
    cases isLast : current.runs.getLast? with
    | none => rfl
    | some newest =>
      conv_rhs => rw [← List.dropLast_append_getLast? newest isLast]
      simp
  refine ⟨reads.merged, ?_⟩
  rintro _ ⟨rfl⟩ range within inputs
  rw [renamed] at inputs
  apply reads.found current rfl range _ inputs
  rwa [← List.length_map LocalRun.path, renamed, List.length_map] at within

end PendingMerge.Reads

end Blaze
