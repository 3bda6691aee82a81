import Blaze.Storage.LevelOrder
import Blaze.System.WorkerHistory

/-!
# Levels along a history

A merge is planned over one stack and spliced into a later one.  Folds only add runs
of the lowest level or start over with one run, and files are named apart, so the
window the merge is spliced into is still the step of levels it was planned over.
-/

namespace Blaze

open Script

variable {pending : Option PendingMerge} {sequence observed : Nat} {layers : Option LocalLayers}
  {w w' : Worker}

/-- The levels of the stack, oldest first. -/
def LocalLayers.levels (layers : LocalLayers) : List Nat :=
  layers.runs.map LocalRun.level

@[simp]
theorem LocalLayers.length_levels (layers : LocalLayers) :
    layers.levels.length = layers.runs.length :=
  List.length_map _

/-- The merge raises a step of the given level, wherever its files are found. -/
structure PendingMerge.Raises (layers : Option LocalLayers) (level : Nat)
    (pending : PendingMerge) : Prop where
  raised : pending.level = min (level + 1) 255
  placed : ∀ current ∈ layers, ∀ range : RunRange, range.Within 1 current.runs.length →
    range.window current.paths = pending.inputs →
      ∃ count, IsStep current.levels range (count + 1) level

/-- The levels of the stack and the merge in flight. -/
structure LevelsOk (layers : Option LocalLayers) (pending : Option PendingMerge) : Prop where
  descending : ∀ current ∈ layers, Descending current.levels
  merge : ∀ merge ∈ pending, ∃ level, merge.Raises layers level

/-- A merge that is being published raises a step of the stack. -/
def TickState.Levelled (layers : Option LocalLayers) : TickState → Prop
  | .putMerge _ _ publication => ∃ level, publication.pending.Raises layers level
  | .commitMerge _ _ publication _ => ∃ level, publication.pending.Raises layers level
  | _ => True

/-- The levels of a worker are in order and its tick keeps them so. -/
structure Worker.Levelled (w : Worker) : Prop where
  layers : LevelsOk w.layers w.pendingMerge
  tick : w.tick.Levelled w.layers

/-! ## Folds -/

section Fold

variable {forest forest' : ScopedForest LayeredBase} {next : LocalLayers} {file : PuffinBase}
  {layer : Layer}

theorem FoldWrites.descending
    (descending : ∀ current ∈ layers, Descending current.levels)
    (written : FoldWrites forest (observed + 1) layers forest' next file layer) :
    Descending next.levels := by
  cases written with
  | @rebuilt _ _ level first unsettled streamed inherits raised =>
    apply Descending.singleton
    change level ≤ 255
    rw [raised]
    exact levelAbove_le _
  | @layered current _ _ committed streamed =>
    change Descending ((current.runs ++ [_]).map LocalRun.level)
    rw [List.map_append]
    exact (descending current rfl).push

/-- The file of a fold at the next sequence is not one that a merge in flight reads, so
the merge is found where it was. -/
theorem PendingMerge.Raises.fold {level : Nat} {pending : PendingMerge}
    (apart : pending.Apart observed layers) (raises : pending.Raises layers level)
    (written : FoldWrites forest (observed + 1) layers forest' next file layer) :
    pending.Raises (some next) level := by
  have unread : ∀ compact, LocalPath.folded (observed + 1) compact ∉ pending.inputs := by
    intro compact member
    exact Nat.not_succ_le_self observed (apart.known _ member)
  refine ⟨raises.raised, ?_⟩
  rintro _ ⟨rfl⟩ range within window
  rw [← window] at unread
  cases written with
  | rebuilt =>
    apply absurd _ (unread true)
    have outside : ¬ range.stop ≤ ([] : List LocalPath).length := by
      unfold RunRange.Within at within
      exact Nat.not_le_of_gt (Nat.lt_of_lt_of_le (Nat.succ_pos _) within.1)
    exact RunRange.mem_window_concat within outside
  | @layered current =>
    have split : LocalLayers.paths ⟨current.base.pushed file, current.runs ++
        [LocalRun.written (.folded (observed + 1) false) 0 (observed + 1) (observed + 1)]⟩ =
          current.paths ++ [.folded (observed + 1) false] := List.map_append
    have levels : LocalLayers.levels ⟨current.base.pushed file, current.runs ++
        [LocalRun.written (.folded (observed + 1) false) 0 (observed + 1) (observed + 1)]⟩ =
          current.levels ++ [0] := List.map_append
    rw [split] at window unread
    by_cases inside : range.stop ≤ current.paths.length
    · rw [RunRange.window_concat _ inside] at window
      rw [LocalLayers.length_paths] at inside
      obtain ⟨count, step⟩ := raises.placed current rfl range ⟨within.1, inside⟩ window
      rw [levels]
      exact ⟨count, step.push (by rwa [LocalLayers.length_levels])⟩
    · apply absurd (RunRange.mem_window_concat ?_ inside) (unread false)
      simpa using within

theorem LevelsOk.fold (names : NamesOk observed layers pending) (ok : LevelsOk layers pending)
    (written : FoldWrites forest (observed + 1) layers forest' next file layer) :
    LevelsOk (some next) pending where
  descending := by
    rintro _ ⟨rfl⟩
    exact written.descending ok.descending
  merge merge held := by
    obtain ⟨level, raises⟩ := ok.merge merge held
    exact ⟨level, raises.fold (names.merge merge held) written⟩

end Fold

/-! ## Merges -/

/-- A merge just planned raises the step it was planned over. -/
theorem Worker.Planned.raises {pending : PendingMerge} {current : LocalLayers} {range : RunRange}
    (named : current.Named observed) (descending : Descending current.levels)
    (plan : w.Planned pending current range sequence) : ∃ level, pending.Raises w.layers level := by
  obtain ⟨fanout, maxRuns, picked⟩ := plan.picked
  obtain ⟨count, level, step, several, -, -⟩ := pickMerge_isStep descending picked
  obtain ⟨fewer, rfl⟩ : ∃ fewer, count = fewer + 1 := ⟨count - 1, by omega⟩
  rw [plan.layers]
  refine ⟨level, ?_, ?_⟩
  · rw [plan.level, mergedLevel_eq_levelAbove]
    change levelAbove ((range.window current.runs).map LocalRun.level) = _
    rw [RunRange.map_window]
    change levelAbove (range.window current.levels) = _
    rw [step.window, levelAbove_replicate]
  · rintro _ ⟨rfl⟩ other inside window
    have same : range = other := by
      apply RunRange.eq_of_window_eq named.nodup plan.within_paths
        (by rwa [← LocalLayers.length_paths] at inside)
      exact plan.inputs_eq.symm.trans window.symm
    subst same
    exact ⟨fewer, step⟩

theorem LevelsOk.left (named : ∀ current ∈ w.layers, current.Named observed)
    (ok : LevelsOk w.layers w.pendingMerge) (left : w.MergeLeft sequence pending) :
    LevelsOk w.layers pending := by
  refine ⟨ok.descending, ?_⟩
  cases left with
  | none => exact fun merge held => by cases held
  | kept => exact ok.merge
  | planned plan =>
    rintro merge ⟨rfl⟩
    exact plan.raises (named _ plan.layers) (ok.descending _ plan.layers)

/-- Whatever a tick decides about merges, the levels stay in order. -/
theorem Worker.Levelled.proceeds {seen : Observed}
    (named : ∀ current ∈ w.layers, current.Named observed)
    (ok : LevelsOk w.layers w.pendingMerge) (proceeds : w.Proceeds seen w') : w'.Levelled := by
  have kept : ∀ {pending}, w.MergeLeft seen.sequence pending → LevelsOk w.layers pending :=
    LevelsOk.left named ok
  cases proceeds with
  | refused layers within unsliced left | nothing empty left | batch nonempty left | await left =>
    exact ⟨kept left, trivial⟩
  | upload again ready finished layers located committed =>
    exact ⟨kept .none, ok.merge _ ready⟩

/-- The levels a merge is committed with. -/
theorem levels_spliceRunSet {runs : List LocalRun} {range : RunRange} {merged : RunMeta}
    {spliced : List RunMeta} (made : spliceRunSet runs range merged sequence = some spliced) :
    spliced.map RunMeta.level = (runs.map LocalRun.level).take range.start ++
      merged.level :: (runs.map LocalRun.level).drop range.stop := by
  have kept : ∀ {runs : List LocalRun} {listed : List RunMeta}, Described runs listed →
      listed.map RunMeta.level = runs.map LocalRun.level := by
    intro runs listed described
    induction described with
    | nil => rfl
    | cons same _ ih =>
      rw [List.map_cons, List.map_cons, ih, (committedMeta?_eq_some_iff.mp same).2]
      rfl
  unfold spliceRunSet at made
  rcases Option.bind_eq_some_iff.mp made with ⟨below, first, rest⟩
  rcases Option.bind_eq_some_iff.mp rest with ⟨above, second, extended⟩
  rcases Option.map_eq_some_iff.mp extended with ⟨newest, isLast, rfl⟩
  have same : (((below ++ merged :: above).dropLast ++
      [{ newest with maxSequence := sequence }]).map RunMeta.level) =
        (below ++ merged :: above).map RunMeta.level := by
    conv_rhs => rw [← List.dropLast_append_getLast? newest isLast]
    rw [List.map_append, List.map_append]
    rfl
  rw [same, List.map_append, List.map_cons, kept (mapM_committedMeta?_iff.mp first),
    kept (mapM_committedMeta?_iff.mp second), List.map_take, List.map_drop]

/-- The spliced stack has its levels in order. -/
theorem LevelsOk.spliced {publication : Publication} {level : Nat} {runs : List RunMeta}
    {path : ObjectPath} (ok : LevelsOk layers pending)
    (located : publication.Located observed layers pending)
    (raises : publication.pending.Raises layers level)
    (made : spliceRunSet publication.current.runs publication.range (publication.mergedMeta path)
      sequence = some runs)
    (base : LayeredBase) : LevelsOk (some (Worker.splicedLayers base runs publication)) none := by
  obtain ⟨count, step⟩ := raises.placed _ located.current _ located.within located.located
  refine ⟨?_, fun merge held => by cases held⟩
  rintro _ ⟨rfl⟩
  have levels : (Worker.splicedLayers base runs publication).levels = runs.map RunMeta.level := by
    unfold LocalLayers.levels Worker.splicedLayers
    rw [List.map_map]
    conv_rhs => rw [← List.map_fst_zip (Publication.length_localPaths made).le, List.map_map]
    rfl
  rw [levels, levels_spliceRunSet made]
  change Descending (publication.current.levels.take _ ++
    publication.pending.level :: publication.current.levels.drop _)
  rw [raises.raised]
  exact step.splice (ok.descending _ located.current)

/-! ## Commits -/

theorem LocalLayers.levels_markCommitted (current : LocalLayers) (path : ObjectPath) :
    (current.markCommitted path).levels = current.levels := by
  unfold LocalLayers.levels LocalLayers.markCommitted
  cases isLast : current.runs.getLast? with
  | none => rfl
  | some newest =>
    conv_rhs => rw [← List.dropLast_append_getLast? newest isLast]
    simp

/-- Committing the newest run changes neither files nor levels. -/
theorem LevelsOk.markCommitted {layers : Option LocalLayers} (ok : LevelsOk layers pending)
    (path : ObjectPath) :
    LevelsOk (layers.map fun current => current.markCommitted path) pending := by
  refine ⟨?_, fun merge held => ?_⟩
  · intro current member
    obtain ⟨current, held, rfl⟩ := Option.map_eq_some_iff.mp member
    rw [LocalLayers.levels_markCommitted]
    exact ok.descending current held
  · obtain ⟨level, raises⟩ := ok.merge merge held
    refine ⟨level, raises.raised, ?_⟩
    intro current member range within window
    obtain ⟨current, held, rfl⟩ := Option.map_eq_some_iff.mp member
    rw [← LocalLayers.length_paths, LocalLayers.paths_markCommitted,
      LocalLayers.length_paths] at within
    rw [LocalLayers.paths_markCommitted] at window
    rw [LocalLayers.levels_markCommitted]
    exact raises.placed current held range within window

/-! ## Steps -/

section Steps

variable {log : Log} {config : FlusherConfig} {input : TickInput} {store store' : ObjectStore}

theorem Worker.Levelled.finish (levelled : w.Levelled) (result : Except TickError Unit) :
    (w.finish result).Levelled :=
  ⟨levelled.layers, trivial⟩

theorem Worker.Levelled.follow (names : Blaze.NamesOk w.cachedSeq w.layers w.pendingMerge)
    (ok : LevelsOk w.layers w.pendingMerge) (next : sequence = w.cachedSeq + 1) (diskOk : Bool) :
    (w.follow config sequence diskOk).Levelled := by
  subst next
  rcases w.follow_effect config (w.cachedSeq + 1) diskOk with ⟨folded, effect, same⟩
  rw [same]
  cases effect with
  | kept | fails => exact ⟨ok, trivial⟩
  | writes disk works written => exact ⟨ok.fold names written, trivial⟩

theorem Worker.Levelled.finishMerge (levelled : w.Levelled) {diskOk : Bool}
    (finished : w.finishMerge diskOk = some w') : w'.Levelled := by
  obtain ⟨pending, held, -, rfl⟩ := finishMerge_spec finished
  refine ⟨⟨levelled.layers.descending, ?_⟩, levelled.tick⟩
  rintro _ ⟨rfl⟩
  obtain ⟨level, raises⟩ := levelled.layers.merge pending held
  exact ⟨level, raises.raised, raises.placed⟩

/-- A step of a tick keeps the levels in order. -/
theorem Worker.Levelled.tickEffect (catalog : store.snapshots.Named) (names : w.NamesOk config)
    (levelled : w.Levelled) (effect : Worker.TickEffect config input store w store' w') :
    w'.Levelled := by
  have ok := levelled.layers
  have tick := levelled.tick
  have named := names.layers.named
  cases effect with
  | readRefused => exact ⟨ok, trivial⟩
  | follows stands reply found follower =>
    exact Worker.Levelled.follow (w := ({ w with cachedSeq := _ }.dropCovered _))
      (names.layers.mono (SnapshotCatalog.le_latest found)) ok
      (SnapshotCatalog.latest_next catalog found) _
  | leads stands reply found leader decided =>
    exact Worker.Levelled.proceeds (w := ({ w with cachedSeq := _ }.dropCovered _)) named ok decided
  | undescribable stands reply decided => exact Worker.Levelled.proceeds named ok decided
  | putMerge stands reply described =>
    rw [stands] at tick
    exact ⟨ok, tick⟩
  | commitMergeConflict stands reply taken decided =>
    exact Worker.Levelled.proceeds named ok decided
  | spliceFails => exact ⟨ok, trivial⟩
  | @commitMerge seen again publication snapshot spliced w' stands reply works free resolved
      decided =>
      have located := names.tick
      rw [stands] at tick located
      obtain ⟨level, raises⟩ := tick
      obtain ⟨next, sequence, located, made⟩ := located
      refine Worker.Levelled.proceeds (w := { w with cachedSeq := _, forest := _, layers := _ })
        (located.spliced names.layers made spliced).named ?_ decided
      dsimp only
      rw [located.taken]
      exact ok.spliced located raises made spliced
  | awaits stands decided => exact Worker.Levelled.proceeds named ok decided
  | foldFails stands reply folded =>
    cases Worker.foldForCommit_effect folded with
    | fails => exact ⟨ok, trivial⟩
  | putData stands reply folded =>
    have next := names.tick
    rw [stands] at next
    rw [next] at folded
    cases Worker.foldForCommit_effect folded with
    | ram => exact ⟨ok, trivial⟩
    | writes disk works written => exact ⟨ok.fold names.layers written, trivial⟩
  | putPuffin => exact ⟨ok, trivial⟩
  | commitData => exact ⟨ok.markCommitted _, trivial⟩
  | _ => exact levelled.finish _

theorem Worker.Levelled.acts (names : w.NamesOk config) (levelled : w.Levelled)
    (acts : Worker.Acts log config w w') : w'.Levelled := by
  cases acts with
  | apply applied =>
    obtain ⟨event, -, -, -, rfl⟩ := applyRecord_spec applied
    exact ⟨levelled.layers, levelled.tick⟩
  | append appended =>
    obtain ⟨record, -, rfl⟩ := appendRecord_spec appended
    exact ⟨levelled.layers, levelled.tick⟩
  | finishMerge finished => exact levelled.finishMerge finished
  | startTick started =>
    obtain ⟨-, rfl⟩ := startTick_spec started
    exact ⟨levelled.layers, trivial⟩
  | tick named stepped => exact levelled.tickEffect named names (tickStep_effect stepped)

end Steps

/-- A worker that starts from levels in order has them in order. -/
theorem Worker.Starts.levelled {config : FlusherConfig} {w : Worker} (starts : w.Starts config)
    (descending : ∀ current ∈ w.layers, Descending current.levels) : w.Levelled := by
  obtain ⟨result, idle⟩ := starts.idle
  refine ⟨⟨descending, ?_⟩, ?_⟩
  · rw [starts.merge]
    exact fun merge held => by cases held
  · rw [idle]
    trivial

/-- Along every history that starts with nothing on disk or with a committed run set
whose levels are in order, the levels of the stack never rise, and what `start_merge`
picks is a step of them: between two runs and a full level, strictly higher ones below,
and none higher above. -/
theorem history_levels_descend {log : Log} {config : FlusherConfig} {start w : Worker}
    (starts : start.Starts config) (ordered : ∀ current ∈ start.layers, Descending current.levels)
    (history : Relation.ReflTransGen (Worker.Acts log config) start w) :
    ∀ current ∈ w.layers,
      current.levels.Pairwise (fun older newer => newer ≤ older) ∧
      ∀ range, pickMerge current.levels config.tierFanout config.maxDeltaLayers = some range →
        range.stop ≤ current.runs.length ∧ 2 ≤ range.len ∧
        range.len ≤ max config.tierFanout 2 ∧
        ∃ level, IsStep current.levels range range.len level := by
  have levelled : w.NamesOk config ∧ w.Levelled := by
    induction history with
    | refl => exact ⟨starts.namesOk, starts.levelled ordered⟩
    | tail _ acts ih =>
        obtain ⟨names, levelled⟩ := ih
        exact ⟨names.acts acts, levelled.acts names acts⟩
  intro current held
  have descending := levelled.2.layers.descending current held
  refine ⟨descending.ordered, ?_⟩
  intro range picked
  have within := pickMerge_within picked
  obtain ⟨count, level, step, several, few, -⟩ := pickMerge_isStep descending picked
  have size : count = range.len := by
    have lengths := congrArg List.length step.window
    unfold RunRange.Within at within
    unfold RunRange.len
    simp only [RunRange.window, List.length_drop, List.length_take,
      List.length_replicate] at lengths
    omega
  rw [size] at step several few
  refine ⟨?_, several, few, level, step⟩
  have bound := within.2
  rwa [LocalLayers.length_levels] at bound

/-! ## A history in the system -/

/-- A worker that does not crash takes a step of its history. -/
theorem Process.step_acts {log : Log} {config : FlusherConfig} {store store' : ObjectStore}
    {process : Process} {act : Act} (named : store.snapshots.Named) (alive : act ≠ .crash)
    (stepped : (Process.running w).step log config store act = some (store', process)) :
    ∃ w', process = .running w' ∧ w.Acts log config w' := by
  cases act with
  | apply p o =>
    obtain ⟨w', applied, ⟨⟩⟩ := Option.map_eq_some_iff.mp stepped
    exact ⟨w', rfl, .apply applied⟩
  | append =>
    obtain ⟨w', appended, ⟨⟩⟩ := Option.map_eq_some_iff.mp stepped
    exact ⟨w', rfl, .append appended⟩
  | finishMerge diskOk =>
    obtain ⟨w', finished, ⟨⟩⟩ := Option.map_eq_some_iff.mp stepped
    exact ⟨w', rfl, .finishMerge finished⟩
  | startTick =>
    obtain ⟨w', started, ⟨⟩⟩ := Option.map_eq_some_iff.mp stepped
    exact ⟨w', rfl, .startTick started⟩
  | tick input =>
    obtain ⟨⟨store, w'⟩, ticked, ⟨⟩⟩ := Option.map_eq_some_iff.mp stepped
    exact ⟨w', rfl, .tick named ticked⟩
  | crash => exact absurd rfl alive
  | _ => cases stepped

/-- As long as a worker of a system runs, its own steps make a history. -/
theorem System.exists_history {log : Log} {config : Nat → FlusherConfig} {s t : System} {i : Nat}
    {start : Worker} {actions : List Action} (ordered : s.InOrder)
    (running : s.process i = .running start) (alive : ∀ action ∈ actions, action ≠ ⟨i, .crash⟩)
    (performed : Execution.run (System.step log config) actions s = some t) :
    ∃ w, t.process i = .running w ∧
      Relation.ReflTransGen (Worker.Acts log (config i)) start w := by
  have both : t.InOrder ∧ ∃ w, t.process i = .running w ∧
      Relation.ReflTransGen (Worker.Acts log (config i)) start w := by
    apply Execution.run_invariant (fun state : System => state.InOrder ∧ ∃ w,
      state.process i = .running w ∧ Relation.ReflTransGen (Worker.Acts log (config i)) start w)
      ?_ ⟨ordered, start, running, .refl⟩ performed
      (Execution.allowed_of_forall_mem (fun action member _ => alive action member) s)
    rintro state ⟨j, act⟩ after ⟨ordered, w, here, history⟩ survives stepped
    refine ⟨System.inOrder_step ordered stepped, ?_⟩
    obtain ⟨store, process, taken, rfl⟩ := Interleaving.step_eq_some_iff.mp stepped
    by_cases mine : i = j
    · subst mine
      rw [here] at taken
      obtain ⟨w', rfl, acts⟩ := Process.step_acts ordered.shared.named
        (fun crash => survives (crash ▸ rfl)) taken
      exact ⟨w', Interleaving.update_process_self .., history.tail acts⟩
    · exact ⟨w, (Interleaving.update_process_of_ne _ _ mine).trans here, history⟩
  exact both.2

/-- Two runs are merged while a third is folded, the merge is adopted below it, and a
fourth run makes the next step to merge. -/
theorem history_levels_descend_mergedLate :
    ∃ start w current, start.Starts (worker true) ∧
      Relation.ReflTransGen (Worker.Acts (lines 4) (worker true)) start w ∧
      w.layers = some current ∧ current.levels = [1, 0, 0] ∧
      pickMerge current.levels 2 24 = some ⟨1, 3⟩ ∧
      current.levels.Pairwise (fun older newer => newer ≤ older) ∧
      ∃ level, IsStep current.levels ⟨1, 3⟩ 2 level := by
  have reaches : (System.run (lines 4) (fun _ => worker true) (boot 0)).any
      (fun s => (s.process 0).worker?.any fun start =>
        start.layers.isNone && start.pendingMerge.isNone && start.tick.result?.isSome &&
        (Execution.run (System.step (lines 4) fun _ => worker true)
          (ingest 0 0 1 ++ lead 0 4 ++ ingest 0 0 2 ++ lead 0 4 ++ lead 0 1 ++ ingest 0 0 3 ++
            lead 0 4 ++ [⟨0, .finishMerge true⟩] ++ lead 0 3 ++ ingest 0 0 4 ++ lead 0 4) s).any
          fun t =>
        (t.process 0).worker?.any fun w => w.layers.any fun current =>
          current.levels == [1, 0, 0]) = true := by
    decide +kernel
  simp only [Option.any_eq_true, Bool.and_eq_true, Option.isNone_iff_eq_none,
    Option.isSome_iff_exists, beq_iff_eq] at reaches
  obtain ⟨s, booted, start, held, ⟨⟨fresh, unmerged⟩, result, idle⟩, t, performed, w, kept,
    current, stack, levels⟩ := reaches
  obtain ⟨w', running, history⟩ := System.exists_history (System.inOrder_run booted)
    (Process.eq_running held) (by decide) performed
  cases (Process.eq_running kept).symm.trans running
  have starts : start.Starts (worker true) := by
    refine ⟨fun _ => fresh, ?_, unmerged, result, TickState.eq_idle idle⟩
    rw [fresh]
    exact fun current impossible => by cases impossible
  have picked : pickMerge current.levels 2 24 = some ⟨1, 3⟩ := by
    rw [levels]
    decide
  obtain ⟨ordered, steps⟩ := history_levels_descend starts
    (by rw [fresh]; exact fun current impossible => by cases impossible) history current stack
  exact ⟨start, w, current, starts, history, stack, levels, picked, ordered,
    (steps _ picked).2.2.2⟩

end Blaze
