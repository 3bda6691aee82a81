import Blaze.Storage.Retention
import Blaze.System.RunSets

/-!
# Histories of one worker

A worker seen on its own: it ingests, ticks and merges while the catalog around it
changes at will.  All it relies on is that a metadata object lies under the sequence
it declares, which is where a commit puts it.
-/

namespace Blaze

open Fallible

variable {snapshots : Snapshots} {runs : List RunMeta} {merge : PendingMerge}
  {sequence cachedSeq observed : Nat} {current layers : LocalLayers} {range : RunRange}
  {store : ObjectStore} {base : LayeredBase} {publication : Publication} {merged : RunMeta}

namespace Worker

/-- One step of a worker against whatever the store holds at that moment. -/
inductive Acts (log : Log) (config : FlusherConfig) : Worker → Worker → Prop
  | apply {w w' : Worker} {p : PartitionId} {o : Nat}
      (applied : w.applyRecord log p o = some w') : Acts log config w w'
  | append {w w' : Worker} (appended : w.appendRecord = some w') : Acts log config w w'
  | finishMerge {w w' : Worker} {diskOk : Bool} (finished : w.finishMerge diskOk = some w') :
      Acts log config w w'
  | startTick {w w' : Worker} (started : w.startTick = some w') : Acts log config w w'
  | tick {w w' : Worker} {input : TickInput} {store store' : ObjectStore}
      (named : store.snapshots.Named)
      (stepped : w.tickStep config input store = some (store', w')) : Acts log config w w'

/-- A worker that begins to ingest: with nothing on disk, or with the runs of a
snapshot it has opened. -/
structure Starts (config : FlusherConfig) (w : Worker) : Prop where
  mode : config.diskMode = false → w.layers = none
  opened : ∀ current ∈ w.layers, ∃ store latest base, openBase store latest = .ok (base, current)
  merge : w.pendingMerge = none
  idle : ∃ result, w.tick = .idle result

end Worker

/-! ## Reading the catalog -/

namespace SnapshotCatalog

theorem le_probe (snapshots : Snapshots) (fuel seq : Nat) : seq ≤ probe snapshots fuel seq := by
  induction fuel generalizing seq with
  | zero => exact le_rfl
  | succ fuel ih =>
    rw [probe]
    split
    · exact (Nat.le_succ seq).trans (ih (seq + 1))
    · exact le_rfl

/-- What is observed never falls back. -/
theorem le_latest {found : Except String (Option SnapshotMeta)}
    (read : latest snapshots cachedSeq = (observed, found)) : cachedSeq ≤ observed := by
  unfold latest at read
  dsimp only at read
  split at read
  · cases read
    exact le_rfl
  · cases read
    exact le_max_left _ _

/-- The tick goes on at the sequence after the observed one. -/
theorem latest_next (named : snapshots.Named) {found : Option SnapshotMeta}
    (read : latest snapshots cachedSeq = (observed, .ok found)) :
    (Observed.new found).sequence = observed + 1 := by
  have grows : cachedSeq ≤ latestSeq snapshots cachedSeq := by
    unfold latestSeq
    by_cases cold : cachedSeq = 0
    · rw [cold]
      exact Nat.zero_le _
    · simp only [if_neg cold]
      exact le_probe snapshots _ cachedSeq
  unfold latest at read
  dsimp only at read
  split at read
  · next empty =>
      cases read
      rw [empty, Nat.le_zero] at grows
      rw [grows]
      rfl
  · cases stored : snapshots[latestSeq snapshots cachedSeq]? with
    | none =>
      rw [stored] at read
      cases read
    | some snapshot =>
      rw [stored] at read
      cases read
      have sequence := named _ snapshot stored
      change snapshot.sequence + 1 = _
      rw [sequence, max_eq_right grows]

end SnapshotCatalog

/-! ## Opening a snapshot -/

/-- The runs of a snapshot begin one after the other. -/
theorem committedRuns_ascending {latest : SnapshotMeta}
    (read : committedRuns snapshots latest = .ok runs) :
    runs.Pairwise fun run next => run.minSequence < next.minSequence := by
  unfold committedRuns at read
  cases accepted : latest.runSet with
  | error text =>
    rw [accepted] at read
    cases read
  | ok listed =>
    rw [accepted] at read
    cases listed with
    | runs listed =>
      cases read
      exact (SnapshotMeta.runSet_runs accepted).2.2.1.strictlyAscending
    | sequencesOnly first last =>
      have starts : runs.map RunMeta.minSequence =
          List.range' first (last + 1 - first) := by
        have fetched := mapM_eq_ok_iff.mp read
        clear read accepted
        generalize List.range' first (last + 1 - first) = sequences at fetched
        induction fetched with
        | nil => rfl
        | cons one _ ih =>
          rw [List.map_cons, ih]
          dsimp only at one
          split at one <;> rcases bind_eq_ok_iff.mp one with ⟨snapshot, -, same⟩ <;>
            cases same <;> rfl
      rw [← List.pairwise_map (f := RunMeta.minSequence), starts]
      exact List.pairwise_lt_range' 1 Nat.one_pos

/-- A worker keeps one cached file for each run of the snapshot it opens. -/
theorem openBase_runs {latest : SnapshotMeta}
    (mapped : openBase store latest = .ok (base, layers)) :
    ∃ runs, committedRuns store.snapshots latest = .ok runs ∧
      layers.runs = runs.map fun run => LocalRun.committed run (.cached run) := by
  unfold openBase at mapped
  rcases bind_eq_ok_iff.mp mapped with ⟨runs, read, rest⟩
  rcases bind_eq_ok_iff.mp rest with ⟨files, -, rest⟩
  rcases bind_eq_ok_iff.mp rest with ⟨stack, -, ⟨⟩⟩
  exact ⟨runs, read, rfl⟩

/-- The files of an opened snapshot are named apart. -/
theorem named_of_openBase {latest : SnapshotMeta}
    (mapped : openBase store latest = .ok (base, layers)) (observed : Nat) :
    layers.Named observed := by
  obtain ⟨runs, read, same⟩ := openBase_runs mapped
  constructor
  · rw [same, List.map_map, List.Nodup, List.pairwise_map]
    apply (committedRuns_ascending read).imp
    intro run next before equal
    have equal : LocalPath.cached run = LocalPath.cached next := equal
    cases equal
    exact lt_irrefl _ before
  · intro run member _
    rw [same] at member
    rcases List.mem_map.mp member with ⟨listed, -, rfl⟩
    exact Nat.zero_le observed

/-! ## Names along a history

A fold names its file after the sequence that follows the observed one, and the names of
committed runs are at or below the observed one.  So a new file never takes the name of
a committed run or of a run that a merge reads. -/

/-- The merge reads files that were known when it was planned, and writes one that is
not in the stack. -/
structure PendingMerge.Apart (observed : Nat) (layers : Option LocalLayers)
    (pending : PendingMerge) : Prop where
  nonempty : pending.inputs ≠ []
  known : ∀ path ∈ pending.inputs, path.sequence ≤ observed
  named : ∃ sequence level, pending.path = .merged sequence level ∧ sequence ≤ observed + 1
  new : ∀ current ∈ layers, pending.path ∉ current.paths

/-- The names of the stack and of the merge in flight. -/
structure NamesOk (observed : Nat) (layers : Option LocalLayers)
    (pending : Option PendingMerge) : Prop where
  named : ∀ current ∈ layers, current.Named observed
  merge : ∀ merge ∈ pending, merge.Apart observed layers

/-- A finished merge is about to replace the runs it has read. -/
structure Publication.Located (observed : Nat) (layers : Option LocalLayers)
    (pending : Option PendingMerge) (publication : Publication) : Prop where
  taken : pending = none
  current : layers = some publication.current
  committed : publication.current.fullyCommitted = true
  within : publication.range.Within 1 publication.current.runs.length
  apart : publication.pending.Apart observed layers
  located : publication.range.window publication.current.paths = publication.pending.inputs

/-- The newest run was folded for the sequence. -/
def NewestFolded (sequence : Nat) (layers : Option LocalLayers) : Prop :=
  ∀ current ∈ layers, ∃ older newest compact, current.runs = older ++ [newest] ∧
    newest.path = .folded sequence compact

/-- The tick works at the sequence after the observed one, on the stack it found. -/
def TickState.NamesOk (observed : Nat) (layers : Option LocalLayers)
    (pending : Option PendingMerge) : TickState → Prop
  | .idle _ => True
  | .readLatest => True
  | .putMerge seen _ publication =>
      seen.sequence = observed + 1 ∧ publication.Located observed layers pending
  | .commitMerge seen _ publication snapshot =>
      seen.sequence = observed + 1 ∧ snapshot.sequence = observed + 1 ∧
        publication.Located observed layers pending ∧
        spliceRunSet publication.current.runs publication.range
          (publication.mergedMeta snapshot.puffinPath) seen.sequence = some snapshot.runs
  | .awaitMerge seen => seen.sequence = observed + 1
  | .putData seen _ => seen.sequence = observed + 1
  | .putPuffin seen _ _ _ _ =>
      seen.sequence = observed + 1 ∧ NewestFolded (observed + 1) layers
  | .commitData _ _ snapshot =>
      snapshot.sequence = observed + 1 ∧ NewestFolded (observed + 1) layers

/-- The worker's files are named apart and its tick keeps them so. -/
structure Worker.NamesOk (config : FlusherConfig) (w : Worker) : Prop where
  mode : config.diskMode = false → w.layers = none
  layers : Blaze.NamesOk w.cachedSeq w.layers w.pendingMerge
  tick : w.tick.NamesOk w.cachedSeq w.layers w.pendingMerge

section Names

variable {observed later : Nat} {layers : Option LocalLayers} {pending : Option PendingMerge}
  {w w' : Worker}

theorem PendingMerge.Apart.mono (more : observed ≤ later) (apart : merge.Apart observed layers) :
    merge.Apart later layers where
  nonempty := apart.nonempty
  known path member := (apart.known path member).trans more
  named := by
    obtain ⟨sequence, level, path, bound⟩ := apart.named
    exact ⟨sequence, level, path, bound.trans (Nat.succ_le_succ more)⟩
  new := apart.new

theorem NamesOk.mono (more : observed ≤ later) (ok : NamesOk observed layers pending) :
    NamesOk later layers pending where
  named current held := (ok.named current held).mono more
  merge merge held := (ok.merge merge held).mono more

/-! ### Folds -/

section Fold

variable {forest forest' : ScopedForest LayeredBase} {next : LocalLayers} {file : PuffinBase}
  {layer : Layer}

/-- The files of a stack after a fold. -/
theorem FoldWrites.paths_eq (written : FoldWrites forest sequence layers forest' next file layer) :
    next.paths = [.folded sequence true] ∨
      ∃ current ∈ layers, next.paths = current.paths ++ [.folded sequence false] := by
  cases written with
  | rebuilt => exact Or.inl rfl
  | @layered current => exact Or.inr ⟨current, rfl, List.map_append⟩

/-- The file of a fold is not one that the merge in flight writes. -/
theorem PendingMerge.Apart.fold (apart : merge.Apart observed layers)
    (written : FoldWrites forest (observed + 1) layers forest' next file layer) :
    merge.Apart observed (some next) := by
  refine ⟨apart.nonempty, apart.known, apart.named, ?_⟩
  obtain ⟨sequence, level, path, -⟩ := apart.named
  rintro _ ⟨rfl⟩ member
  rcases written.paths_eq with rebuilt | ⟨current, held, layered⟩
  · rw [rebuilt, path, List.mem_singleton] at member
    cases member
  · rw [layered] at member
    rcases List.mem_append.mp member with old | new
    · exact apart.new current held old
    · rw [path, List.mem_singleton] at new
      cases new

theorem NamesOk.fold (ok : NamesOk observed layers pending)
    (written : FoldWrites forest (observed + 1) layers forest' next file layer) :
    NamesOk observed (some next) pending where
  named := by
    rintro _ ⟨rfl⟩
    exact written.named ok.named
  merge merge held := (ok.merge merge held).fold written

theorem FoldWrites.newestFolded
    (written : FoldWrites forest (observed + 1) layers forest' next file layer) :
    NewestFolded (observed + 1) (some next) := by
  rintro _ ⟨rfl⟩
  cases written with
  | rebuilt => exact ⟨[], _, true, rfl, rfl⟩
  | layered => exact ⟨_, _, false, rfl, rfl⟩

end Fold

/-! ### Merges -/

theorem Worker.Planned.inputs_eq (plan : w.Planned merge current range sequence) :
    merge.inputs = range.window current.paths := by
  rw [plan.inputs]
  exact RunRange.map_window LocalRun.path range current.runs

theorem Worker.Planned.within_paths (plan : w.Planned merge current range sequence) :
    range.Within 1 current.paths.length := by
  have within := plan.within
  unfold RunRange.Within at within ⊢
  rw [LocalLayers.length_paths]
  omega

/-- A merge just planned reads committed files and writes a new one. -/
theorem Worker.Planned.apart (named : current.Named w.cachedSeq)
    (plan : w.Planned merge current range (w.cachedSeq + 1)) :
    merge.Apart w.cachedSeq w.layers := by
  have allCommitted := List.all_eq_true.mp plan.committed
  have known : ∀ run ∈ current.runs, run.path.sequence ≤ w.cachedSeq :=
    fun run member => named.known run member (allCommitted run member)
  rw [plan.layers]
  refine ⟨?_, ?_, ⟨_, _, plan.path, le_rfl⟩, ?_⟩
  · rw [plan.inputs_eq]
    exact RunRange.window_ne_nil plan.within_paths Nat.one_pos
  · intro path member
    rw [plan.inputs_eq] at member
    rcases List.mem_map.mp (RunRange.mem_of_mem_window member) with ⟨run, inside, rfl⟩
    exact known run inside
  · rintro _ ⟨rfl⟩ member
    rcases List.mem_map.mp member with ⟨run, inside, same⟩
    have bound := known run inside
    rw [same, plan.path] at bound
    exact Nat.not_succ_le_self _ bound

theorem NamesOk.left (ok : NamesOk w.cachedSeq w.layers w.pendingMerge)
    (left : w.MergeLeft (w.cachedSeq + 1) pending) : NamesOk w.cachedSeq w.layers pending := by
  refine ⟨ok.named, ?_⟩
  cases left with
  | none => exact fun merge held => by cases held
  | kept => exact ok.merge
  | planned plan =>
    rintro merge ⟨rfl⟩
    exact plan.apart (ok.named _ plan.layers)

/-- Whatever a tick decides about merges, the files stay named apart. -/
theorem Worker.NamesOk.proceeds {config : FlusherConfig} {seen : Observed}
    (mode : config.diskMode = false → w.layers = none)
    (ok : Blaze.NamesOk w.cachedSeq w.layers w.pendingMerge)
    (next : seen.sequence = w.cachedSeq + 1) (proceeds : w.Proceeds seen w') :
    w'.NamesOk config := by
  cases proceeds with
  | refused layers within unsliced left | nothing empty left =>
    exact ⟨mode, ok.left (next ▸ left), trivial⟩
  | batch nonempty left => exact ⟨mode, ok.left (next ▸ left), next⟩
  | await left => exact ⟨mode, ok.left (next ▸ left), next⟩
  | upload again ready finished layers located committed =>
    obtain ⟨within, window⟩ := locateRunWindow_spec located
    refine ⟨mode, ok.left .none, next, rfl, layers, committed, within, ok.merge _ ready, ?_⟩
    exact (RunRange.map_window _ _ _).symm.trans window

theorem Publication.length_localPaths
    (made : spliceRunSet publication.current.runs publication.range merged sequence = some runs) :
    runs.length = publication.localPaths.length := by
  rw [length_spliceRunSet made, Publication.localPaths, List.length_append, List.length_cons,
    List.length_map, List.length_map]

/-- The spliced stack has its files named apart. -/
theorem Publication.Located.spliced (ok : NamesOk observed layers pending)
    (located : publication.Located observed layers pending)
    (made : spliceRunSet publication.current.runs publication.range merged sequence = some runs)
    (base : LayeredBase) :
    NamesOk (observed + 1) (some (Worker.splicedLayers base runs publication)) none := by
  refine ⟨?_, fun merge held => by cases held⟩
  rintro _ ⟨rfl⟩
  obtain ⟨_, _, written, bound⟩ := located.apart.named
  apply Publication.named_splicedLayers (ok.named _ located.current) located.committed
    located.within ?_ ?_ (Publication.length_localPaths made) base
  · intro run member same
    exact located.apart.new _ located.current (List.mem_map.mpr ⟨run, member, same⟩)
  · rw [written]
    exact bound

/-! ### Commits -/

theorem LocalLayers.paths_markCommitted (current : LocalLayers) (path : ObjectPath) :
    (current.markCommitted path).paths = current.paths := by
  unfold LocalLayers.paths LocalLayers.markCommitted
  cases isLast : current.runs.getLast? with
  | none => rfl
  | some newest =>
    conv_rhs => rw [← List.dropLast_append_getLast? newest isLast]
    simp

/-- Committing the newest run changes no file. -/
theorem NamesOk.markCommitted (ok : NamesOk observed layers pending)
    (newest : NewestFolded (observed + 1) layers) (path : ObjectPath) :
    NamesOk (observed + 1) (layers.map fun current => current.markCommitted path) pending := by
  refine ⟨?_, fun merge held => ?_⟩
  · intro current member
    obtain ⟨current, held, rfl⟩ := Option.map_eq_some_iff.mp member
    obtain ⟨older, run, compact, runs, folded⟩ := newest current held
    apply (ok.named current held).markCommitted runs ?_ path
    rw [folded]
    exact le_rfl
  · have apart := (ok.merge merge held).mono (Nat.le_succ observed)
    refine ⟨apart.nonempty, apart.known, apart.named, ?_⟩
    intro current member
    obtain ⟨current, held, rfl⟩ := Option.map_eq_some_iff.mp member
    rw [LocalLayers.paths_markCommitted]
    exact apart.new current held

/-! ### Steps -/

variable {log : Log} {config : FlusherConfig} {input : TickInput} {store store' : ObjectStore}

theorem Worker.NamesOk.finish (names : w.NamesOk config) (result : Except TickError Unit) :
    (w.finish result).NamesOk config :=
  ⟨names.mode, names.layers, trivial⟩

theorem Worker.NamesOk.follow (mode : config.diskMode = false → w.layers = none)
    (ok : Blaze.NamesOk w.cachedSeq w.layers w.pendingMerge) (next : sequence = w.cachedSeq + 1)
    (diskOk : Bool) : (w.follow config sequence diskOk).NamesOk config := by
  subst next
  rcases w.follow_effect config (w.cachedSeq + 1) diskOk with ⟨folded, effect, same⟩
  rw [same]
  cases effect with
  | kept | fails => exact ⟨mode, ok, trivial⟩
  | writes disk works written =>
    exact ⟨fun ram => absurd (disk.symm.trans ram) (by decide), ok.fold written, trivial⟩

theorem Worker.NamesOk.finishMerge (names : w.NamesOk config) {diskOk : Bool}
    (finished : w.finishMerge diskOk = some w') : w'.NamesOk config := by
  obtain ⟨merge, held, -, rfl⟩ := finishMerge_spec finished
  refine ⟨names.mode, ⟨names.layers.named, ?_⟩, ?_⟩
  · rintro _ ⟨rfl⟩
    have apart := names.layers.merge merge held
    exact ⟨apart.nonempty, apart.known, apart.named, apart.new⟩
  · have tick := names.tick
    dsimp only
    cases stands : w.tick with
    | putMerge seen again publication =>
      rw [stands] at tick
      cases held.symm.trans tick.2.taken
    | commitMerge seen again publication snapshot =>
      rw [stands] at tick
      cases held.symm.trans tick.2.2.1.taken
    | _ =>
      rw [stands] at tick
      exact tick

/-- What a commit at the next sequence observes. -/
theorem max_observed (next : sequence = observed + 1) : max observed sequence = observed + 1 := by
  rw [next]
  exact max_eq_right (Nat.le_succ observed)

/-- A step of a tick keeps the files named apart. -/
theorem Worker.NamesOk.tickEffect (named : store.snapshots.Named) (names : w.NamesOk config)
    (effect : Worker.TickEffect config input store w store' w') : w'.NamesOk config := by
  have mode := names.mode
  have ok := names.layers
  have tick := names.tick
  cases effect with
  | readRefused stands reply found =>
    exact ⟨mode, ok.mono (SnapshotCatalog.le_latest found), trivial⟩
  | follows stands reply found follower =>
    exact Worker.NamesOk.follow (w := ({ w with cachedSeq := _ }.dropCovered _)) mode
      (ok.mono (SnapshotCatalog.le_latest found)) (SnapshotCatalog.latest_next named found) _
  | leads stands reply found leader decided =>
    exact Worker.NamesOk.proceeds (w := ({ w with cachedSeq := _ }.dropCovered _)) mode
      (ok.mono (SnapshotCatalog.le_latest found)) (SnapshotCatalog.latest_next named found)
      decided
  | undescribable stands reply decided =>
    rw [stands] at tick
    exact Worker.NamesOk.proceeds mode ok tick.1 decided
  | putMerge stands reply described =>
    rw [stands] at tick
    exact ⟨mode, ok, tick.1, tick.1, tick.2, described⟩
  | commitMergeConflict stands reply taken decided =>
    rw [stands] at tick
    exact Worker.NamesOk.proceeds mode ok tick.1 decided
  | spliceFails => exact ⟨mode, ok.mono (le_max_left _ _), trivial⟩
  | @commitMerge seen again publication snapshot spliced w' stands reply works free resolved
      decided =>
      rw [stands] at tick
      obtain ⟨next, sequence, located, made⟩ := tick
      have disk : config.diskMode = false → False := by
        intro ram
        cases (mode ram).symm.trans located.current
      refine Worker.NamesOk.proceeds (w := { w with cachedSeq := _, forest := _, layers := _ })
        (fun ram => (disk ram).elim) ?_ ?_ decided
      · dsimp only
        rw [max_observed sequence, located.taken]
        exact located.spliced ok made spliced
      · dsimp only
        rw [max_observed sequence]
        exact congrArg Nat.succ next
  | awaits stands decided =>
    rw [stands] at tick
    exact Worker.NamesOk.proceeds mode ok tick decided
  | foldFails stands reply folded =>
    cases Worker.foldForCommit_effect folded with
    | fails => exact ⟨mode, ok, trivial⟩
  | putData stands reply folded =>
    rw [stands] at tick
    rw [tick] at folded
    cases Worker.foldForCommit_effect folded with
    | ram ram =>
      refine ⟨mode, ok, tick, ?_⟩
      rw [mode ram]
      rintro _ ⟨⟩
    | writes disk works written =>
      exact ⟨fun ram => absurd (disk.symm.trans ram) (by decide), ok.fold written, tick,
        written.newestFolded⟩
  | putPuffin stands reply checked =>
    rw [stands] at tick
    exact ⟨mode, ok, tick.1, tick.2⟩
  | @commitData seen batch snapshot stands reply free =>
    rw [stands] at tick
    unfold Worker.batchCommitted
    refine ⟨fun ram => ?_, ?_, trivial⟩
    · dsimp only
      rw [mode ram]
      rfl
    · dsimp only
      rw [max_observed tick.1]
      exact ok.markCommitted tick.2 _
  | _ => exact names.finish _

theorem Worker.NamesOk.acts (names : w.NamesOk config) (acts : Worker.Acts log config w w') :
    w'.NamesOk config := by
  cases acts with
  | apply applied =>
    obtain ⟨event, -, -, -, rfl⟩ := applyRecord_spec applied
    exact ⟨names.mode, names.layers, names.tick⟩
  | append appended =>
    obtain ⟨record, -, rfl⟩ := appendRecord_spec appended
    exact ⟨names.mode, names.layers, names.tick⟩
  | finishMerge finished => exact names.finishMerge finished
  | startTick started =>
    obtain ⟨-, rfl⟩ := startTick_spec started
    exact ⟨names.mode, names.layers, trivial⟩
  | tick named stepped => exact names.tickEffect named (tickStep_effect stepped)

theorem Worker.Starts.namesOk (starts : w.Starts config) : w.NamesOk config := by
  obtain ⟨result, idle⟩ := starts.idle
  refine ⟨starts.mode, ⟨?_, ?_⟩, ?_⟩
  · intro current held
    obtain ⟨store, latest, base, mapped⟩ := starts.opened current held
    exact named_of_openBase mapped _
  · rw [starts.merge]
    exact fun merge held => by cases held
  · rw [idle]
    trivial

end Names

end Blaze
