import Blaze.System.InStep
import Blaze.System.RunSetGaps
import Blaze.System.SnapshotRouting

/-!
# A table with one writer

When one disk-mode worker is the only one to write to a table, it always keeps up
with the catalog: nobody commits between its reads and its commits, and its stack
is in the catalog either as the newest snapshot or not at all.  Its ticks may fail
at any request, and it may crash and start again at any moment.
-/

namespace Blaze

open Execution Script

variable {log : Log} {bound : Set EdgeEvent} {config : FlusherConfig} {input : TickInput}
  {store store' : ObjectStore} {w w' : Worker} {i : Nat} {s : System}

/-- A step of the only writer `i`: a request either takes effect or fails, and the
local disk works. -/
def OnlyWriter (i : Nat) (action : Action) : Prop :=
  action.worker = i ∧
    match action.act with
    | .tick input => input.reply ≠ .lost ∧ input.diskOk = true
    | _ => True

instance (i : Nat) (action : Action) : Decidable (OnlyWriter i action) := by
  unfold OnlyWriter
  split <;> infer_instance

/-! ## The writer and the catalog -/

/-- The worker has observed every commit, and its state covers the catalog. -/
structure Worker.Alone (store : ObjectStore) (w : Worker) : Prop where
  cached : w.cachedSeq = store.count
  ahead : ∀ p, store.positionAt store.count p ≤ w.position.get p
  stack : EndsNewest store w.layers
  tick : w.tick.Passed w.position

def Process.Alone (store : ObjectStore) : Process → Prop
  | .offline => True
  | .booting boot => boot.cachedSeq = store.count ∧
      boot.hydrated = store.snapshots[store.count]? ∧ EndsNewest store boot.layers
  | .running w => w.Alone store

section Steps

variable {process process' : Process} {act : Act}

theorem Process.Alone.inStep (alone : process.Alone store) : process.InStep store := by
  cases process with
  | offline => trivial
  | booting boot => exact alone
  | running w => exact ⟨fun _ => alone.cached, alone.ahead, alone.stack, alone.tick⟩

theorem OnlyWriter.mergesAnswered (only : OnlyWriter i ⟨i, act⟩) : MergesAnswered process act := by
  cases process with
  | running w =>
    cases act with
    | tick input =>
      cases stands : w.tick with
      | commitMerge seen again publication snapshot =>
        simp only [MergesAnswered, stands]
        exact ⟨only.2.1, fun _ => only.2.2⟩
      | _ => simp only [MergesAnswered, stands]
    | _ => trivial
  | _ => trivial

/-- A step of the only writer's tick leaves no commit unobserved. -/
theorem Worker.Alone.cached_tickEffect (ok : store.InOrder) (order : w.InOrder store)
    (alone : w.Alone store) (arrives : input.reply ≠ .lost)
    (effect : Worker.TickEffect config input store w store' w') : w'.cachedSeq = store'.count := by
  have cached := alone.cached
  have uploaded : ∀ {later : ObjectStore}, later.snapshots = store.snapshots →
      w.cachedSeq = later.count := by
    intro later same
    rw [(ObjectStore.count_congr same).1]
    exact cached
  have proceeds : ∀ {v : Worker} {seen : Observed}, v.Proceeds seen w' →
      w'.cachedSeq = v.cachedSeq := by
    intro v seen decided
    cases decided <;> rfl
  cases effect with
  | readRefused stands reply found | follows stands reply found =>
    exact (Worker.read_newest ok order.cached found).1
  | leads stands reply found leader decided =>
    exact (proceeds decided).trans (Worker.read_newest ok order.cached found).1
  | putMergeFails stands reply arrived | putDataFails stands reply arrived
  | putPuffinFails stands reply arrived => rcases arrived with rfl | rfl <;> exact uploaded rfl
  | undescribable stands reply decided => exact (proceeds decided).trans (uploaded rfl)
  | commitMergeLost stands reply | commitDataLost stands reply => exact absurd reply arrives
  | commitMergeConflict stands reply taken decided => exact (proceeds decided).trans cached
  | spliceFails stands reply free =>
    rcases Worker.InOrder.merged ok order stands free with ⟨-, cached, -⟩
    exact cached
  | commitMerge stands reply works free resolved decided =>
    rcases Worker.InOrder.merged ok order stands free with ⟨-, cached, -⟩
    exact (proceeds decided).trans cached
  | awaits stands decided => exact (proceeds decided).trans cached
  | foldFails stands reply folded =>
    cases Worker.foldForCommit_effect folded with
    | fails => exact uploaded rfl
  | putData stands reply folded =>
    cases Worker.foldForCommit_effect folded with
    | ram | writes => exact uploaded rfl
  | commitData stands reply free => exact (Worker.InOrder.committed ok order stands free).2.2
  | _ => exact uploaded rfl

theorem Process.Alone.effect
    (ok : store.InOrder) (order : process.InOrder store) (assembles : store.Assembles)
    (runs : process.RunsOk config store) (data : process.DataOk log store)
    (routed : process.Routed log bound store) (alone : process.Alone store)
    (only : OnlyWriter i ⟨i, act⟩)
    (effect : ProcessEffect log config store process act store' process') :
    process'.Alone store' := by
  have inStep := alone.inStep.effect ok order assembles runs data routed only.mergesAnswered effect
  cases process' with
  | offline => trivial
  | booting boot => exact inStep
  | running w' =>
    refine ⟨?_, inStep.ahead, inStep.stack, inStep.tick⟩
    generalize reached : Process.running w' = process' at effect inStep
    cases effect with
    | checks =>
      rename_i boot unchecked
      cases (congrArg Process.worker? reached).trans boot.worker?_checkStream
    | seeks =>
      rcases Boot.seek_spec ok order with ⟨position, start, sought⟩
      rw [sought] at reached
      cases reached
      rfl
    | applies | appends | finishes | starts =>
      cases reached
      exact alone.cached
    | ticks effect =>
      cases reached
      exact Worker.Alone.cached_tickEffect ok order alone only.2.1 effect
    | _ => cases reached

end Steps

/-! ## Failed ticks -/

/-- A tick that has not returned with success. -/
def Process.Unsuccessful : Process → Prop
  | .running w => w.tick ≠ .idle (.ok ())
  | _ => False

/-- A step after which the tick has not succeeded leaves the committed position
where it was: it has published a merge at most. -/
theorem Worker.Alone.position_kept (ok : store.InOrder) (order : w.InOrder store)
    (alone : w.Alone store) (arrives : input.reply ≠ .lost)
    (unsuccessful : w'.tick ≠ .idle (.ok ()))
    (effect : Worker.TickEffect config input store w store' w') (p : PartitionId) :
    store'.positionAt store'.count p = store.positionAt store.count p := by
  have tickOrder := order.tick
  have merged : ∀ {seen again publication snapshot},
      w.tick = .commitMerge seen again publication snapshot →
      snapshot.sequence ∉ store.snapshots →
      (store.commit snapshot).positionAt (store.commit snapshot).count p =
        store.positionAt store.count p := by
    intro seen again publication snapshot stands free
    rcases Worker.InOrder.merged ok order stands free with ⟨appended, -, -⟩
    rw [stands] at tickOrder
    rw [appended.count, ObjectStore.positionAt_of_getElem? appended.stored, tickOrder.2.2,
      tickOrder.1.position, alone.cached]
  cases effect with
  | commitMergeLost stands reply | commitDataLost stands reply => exact absurd reply arrives
  | spliceFails stands reply free | commitMerge stands reply works free =>
    exact merged stands free
  | commitData => exact absurd rfl unsuccessful
  | putMergeFails stands reply uploaded | putDataFails stands reply uploaded
  | putPuffinFails stands reply uploaded => rcases uploaded with rfl | rfl <;> rfl
  | _ => rfl

/-- A tick that has not succeeded was under way before, unless it was just
started. -/
theorem Process.Unsuccessful.effect {process process' : Process} {act : Act} {i : Nat}
    (ok : store.InOrder) (order : process.InOrder store) (alone : process.Alone store)
    (only : OnlyWriter i ⟨i, act⟩) (unstarted : act ≠ .startTick)
    (effect : ProcessEffect log config store process act store' process')
    (unsuccessful : process'.Unsuccessful) :
    process.Unsuccessful ∧
      ∀ p, store'.positionAt store'.count p = store.positionAt store.count p := by
  cases effect with
  | checks =>
    exact absurd unsuccessful
      (Boot.checkStream_rule (P := fun process => ¬process.Unsuccessful) id fun _ _ => id)
  | @seeks boot checked =>
    rcases Boot.seek_spec ok order with ⟨position, start, sought⟩
    rw [sought] at unsuccessful
    exact absurd rfl unsuccessful
  | applies | appends | finishes => exact ⟨unsuccessful, fun _ => rfl⟩
  | starts => exact absurd rfl unstarted
  | ticks effect =>
    refine ⟨?_, Worker.Alone.position_kept ok order alone only.2.1 unsuccessful effect⟩
    intro idle
    cases effect <;> simp_all
  | _ => cases unsuccessful

/-! ## Whole executions -/

namespace System

/-- The records the writer has applied in the course of the execution. -/
def consumed (log : Log) (i : Nat) (actions : List Action) : Set EdgeEvent :=
  {event | ∃ p o, ⟨i, .apply p o⟩ ∈ actions ∧ log.record p o = some event}

theorem consumed_append_left (log : Log) (i : Nat) (past later : List Action) :
    consumed log i past ⊆ consumed log i (past ++ later) := by
  rintro event ⟨p, o, taken, stored⟩
  exact ⟨p, o, List.mem_append_left later taken, stored⟩

def Alone (i : Nat) (s : System) : Prop :=
  (s.process i).Alone s.store

/-- One step of the only writer. -/
theorem alone_step {t : System} {action : Action} (routed : s.Routed log bound fun _ => config)
    (alone : s.Alone i) (only : OnlyWriter i action)
    (consumed : ∀ p o event, action.act = .apply p o → log.record p o = some event →
      event ∈ bound)
    (stepped : step log (fun _ => config) s action = some t) :
    t.Routed log bound (fun _ => config) ∧ t.Alone i := by
  rcases action with ⟨worker, act⟩
  cases only.1
  refine ⟨(inStep_step routed alone.inStep ⟨rfl, only.mergesAnswered⟩ consumed stepped).1, ?_⟩
  rcases routed with ⟨⟨ordered, runs⟩, data, holds⟩
  rcases step_effect stepped with ⟨store, process, effect, rfl⟩
  unfold Alone
  rw [Interleaving.update_process_self, Interleaving.update_store]
  exact Process.Alone.effect ordered.shared (ordered.own _) runs.shared (runs.own _)
    (data.2.own _) (holds.own _) alone only effect

/-- The only writer always knows the catalog, and all files hold what it has
consumed. -/
theorem alone_run {actions : List Action} (performed : run log (fun _ => config) actions = some s)
    (only : ∀ action ∈ actions, OnlyWriter i action) :
    s.Routed log (consumed log i actions) (fun _ => config) ∧ s.Alone i := by
  have allowed : Allowed (step log fun _ => config)
      (fun _ action => OnlyWriter i action) actions init :=
    allowed_of_forall_mem (fun action member _ => only action member) init
  refine run_induction (fun past state =>
    state.Routed log (consumed log i past) (fun _ => config) ∧ state.Alone i)
    ⟨routed_init, trivial⟩ ?_ performed allowed
  rintro past state action after - ⟨routed, alone⟩ only stepped
  refine alone_step (routed.mono (consumed_append_left log i past [action])) alone only ?_ stepped
  intro p o event applies stored
  refine ⟨p, o, ?_, stored⟩
  rw [← only.1, ← applies]
  simp

/-- While a tick has not succeeded, the committed position stays where it was when
the tick started. -/
theorem position_of_unsuccessful {past during : List Action} {before : System}
    (reached : run log (fun _ => config) past = some before)
    (only : ∀ action ∈ past ++ during, OnlyWriter i action)
    (unstarted : ∀ action ∈ during, action.act ≠ .startTick)
    (performed : Execution.run (step log fun _ => config) during before = some s)
    (unsuccessful : (s.process i).Unsuccessful) (p : PartitionId) :
    s.store.positionAt s.store.count p = before.store.positionAt before.store.count p := by
  induction during using List.reverseRecOn generalizing s with
  | nil =>
    cases performed
    rfl
  | append_singleton during action ih =>
    rcases run_concat_iff.mp performed with ⟨middle, ongoing, stepped⟩
    have soFar : run log (fun _ => config) (past ++ during) = some middle := by
      unfold run at reached ⊢
      rw [run_append, reached]
      exact ongoing
    rw [← List.append_assoc] at only
    rcases alone_run soFar fun action member => only action (List.mem_append_left _ member) with
      ⟨⟨⟨ordered, -⟩, -⟩, alone⟩
    have last := only action (by simp)
    rcases action with ⟨worker, act⟩
    cases last.1
    rcases step_effect stepped with ⟨store, process, effect, rfl⟩
    rw [Interleaving.update_process_self] at unsuccessful
    rcases unsuccessful.effect ordered.shared (ordered.own _) alone last
      (unstarted ⟨worker, act⟩ (by simp)) effect with ⟨before, kept⟩
    rw [Interleaving.update_store, kept p]
    exact ih
      (fun action member => only action (List.mem_append_left _ member))
      (fun action member => unstarted action (List.mem_append_left _ member)) ongoing before

/-- The newest snapshot can be loaded. -/
theorem loadState_ok (disk : config.diskMode = true) (routed : s.Routed log bound fun _ => config) :
    ∃ boot, loadState config s.store = .ok boot := by
  rcases routed with ⟨⟨ordered, runs⟩, -, holds⟩
  unfold loadState
  rw [SnapshotCatalog.latest_of_dense ordered.shared.dense (Nat.zero_le _)]
  cases newest : s.store.snapshots[s.store.count]? with
  | none => exact ⟨_, rfl⟩
  | some latest =>
    rcases holds.shared _ latest newest with ⟨files, events, serves, -⟩
    rcases (runs.shared _ latest newest).openBase_ok serves with ⟨base, layers, mapped, -⟩
    simp only [bind, Except.bind, disk, if_true, mapped]
    exact ⟨_, rfl⟩

end System

/-- The rows the buffer holds. -/
def EdgeBuffer.rows (buffer : EdgeBuffer) : List Row :=
  (buffer.sealed ++ [buffer.active]).flatMap Segment.rows

theorem EdgeBuffer.Holds.rows {buffer : EdgeBuffer} {chunks : List (List Record)}
    {recent : List Record} (holds : buffer.Holds chunks recent) {record : Record}
    (member : record ∈ chunks.flatten ++ recent) {row : Row} (inRows : row ∈ record.rows) :
    row ∈ buffer.rows := by
  unfold EdgeBuffer.rows
  rw [List.flatMap_append, List.flatMap_singleton, List.mem_append,
    (rows_perm_of_holds holds.sealed).mem_iff, holds.active.rows.mem_iff]
  rcases List.mem_append.mp member with sealed | active
  · exact Or.inl (List.mem_flatMap.mpr ⟨record, sealed, inRows⟩)
  · exact Or.inr (List.mem_flatMap.mpr ⟨record, active, inRows⟩)

/-- The table of a single disk-mode writer that may fail at every request and crash
at every moment.  Every run set it commits is accepted, and the table can be opened
again.  While the writer runs, every record it has passed is in the catalog or in
the buffer, and once it has passed everything it ever consumed, its roots are the
smallest nodes of the components of all of that.  A tick that fails leaves the
committed position where it was. -/
theorem sole_writer_recovers {log : Log} {config : FlusherConfig}
    (disk : config.diskMode = true) {i : Nat} {actions : List Action} {s : System}
    (performed : System.run log (fun _ => config) actions = some s)
    (only : ∀ action ∈ actions, OnlyWriter i action) :
    (∀ (k : Nat) (snapshot : SnapshotMeta), s.store.snapshots[k]? = some snapshot →
      snapshot.Accepted) ∧
    (∃ boot, loadState config s.store = .ok boot) ∧
    (∀ w, s.process i = .running w →
      (∀ record, log.Has record → record.offset ≤ w.position.get record.partition →
        record.offset ≤ s.store.positionAt s.store.count record.partition ∨
          ∀ row ∈ record.rows, row ∈ w.buffer.rows) ∧
      (System.consumed log i actions ⊆ w.reached log → ∀ scope x,
        IsLeast {y | (visibleGraph (System.consumed log i actions) scope).Reachable x y}
          (w.forest.scopeRoot scope x).2)) ∧
    (∀ past during before w error, actions = past ++ ⟨i, .startTick⟩ :: during →
      (∀ action ∈ during, action.act ≠ .startTick) →
      System.run log (fun _ => config) past = some before →
      s.process i = .running w → w.tick = .idle (.error error) →
      ∀ p, s.store.positionAt s.store.count p = before.store.positionAt before.store.count p) := by
  rcases System.alone_run performed only with ⟨routed, alone⟩
  have parts := routed
  rcases parts with ⟨⟨ordered, runs⟩, data, holds⟩
  refine ⟨fun k snapshot stored => ?_, System.loadState_ok disk routed, fun w running => ?_, ?_⟩
  · have adjacent : Allowed (System.step log fun _ => config) System.CommitsAdjacent
        actions System.init := by
      apply allowed_of_reached
      rintro past action later middle rfl reached
      exact (System.alone_run reached fun earlier member =>
        only earlier (List.mem_append_left _ member)).1.commitsAdjacent action
    exact (runs.shared k snapshot stored).accepted
      (System.listed_run (fun _ => disk) performed adjacent k snapshot stored)
  · have dataOk := data.2.own i
    have own := holds.own i
    unfold System.Alone at alone
    rw [running] at dataOk own alone
    constructor
    · intro record has passed
      rcases dataOk.buffers with ⟨chunks, recent, buffers⟩
      have complete := buffers.complete record has passed
      rw [alone.cached] at complete
      exact complete.imp id fun member row inRows => buffers.holds.rows member inRows
    · intro replayed scope x
      rcases own.serving.state with ⟨events, onDisk, covers, within⟩
      have same : events = System.consumed log i actions :=
        Set.Subset.antisymm within (replayed.trans covers)
      rw [← same]
      exact onDisk.represents.isLeast_scopeRoot scope x
  · rintro past during before w error rfl unstarted reached running failed p
    unfold System.run at performed reached
    rw [run_append, reached, Option.bind_some] at performed
    rcases Option.bind_eq_some_iff.mp performed with ⟨started, stepped, rest⟩
    have began : started.store = before.store := by
      rcases System.step_effect stepped with ⟨store, process, effect, rfl⟩
      rw [Interleaving.update_store]
      dsimp only at effect
      generalize before.process i = process₀ at effect
      cases effect
      rfl
    rw [← began]
    have soFar := run_concat_iff.mpr ⟨before, reached, stepped⟩
    refine System.position_of_unsuccessful soFar (by simpa using only) unstarted rest ?_ p
    rw [running]
    intro succeeded
    rw [failed] at succeeded
    cases succeeded

/-- A writer commits its first record.  Its second tick folds, and then the upload
of the routing file fails; the writer crashes, starts again from its first snapshot
and replays its second record. -/
def Script.crashed : List Action :=
  boot 0 ++ ingest 0 0 1 ++ lead 0 4 ++ ingest 0 0 2 ++
    lead 0 2 ++ [⟨0, .tick { leading with reply := .failed }⟩, ⟨0, .crash⟩] ++
    boot 0 ++ ingest 0 0 2

/-- After the replay the writer's third node is rooted at its first one. -/
theorem sole_writer_recovers_after_crash :
    ∃ (s : System) (w : Worker),
      System.run (lines 2) (fun _ => worker true) crashed = some s ∧
      s.process 0 = .running w ∧ 2 ≤ w.position.get 0 ∧
      IsLeast {y | (visibleGraph (System.consumed (lines 2) 0 crashed)
        globalScope).Reachable 3 y} (w.forest.scopeRoot globalScope 3).2 := by
  refine exists_with_of_any (fun s => (s.process 0).worker?.any fun w =>
    decide (2 ≤ w.position.get 0)) (by decide) fun s performed rest => ?_
  rcases (Option.any_eq_true _ _).mp rest with ⟨w, running, passed⟩
  have running := Process.eq_running running
  have passed := of_decide_eq_true passed
  refine ⟨w, running, passed, ?_⟩
  have recovers := sole_writer_recovers rfl performed (i := 0) (by decide)
  refine (recovers.2.2.1 w running).2 ?_ globalScope 3
  rintro event ⟨p, o, applied, stored⟩
  refine Or.inl ⟨p, o, stored, ?_⟩
  have replayed : p = 0 ∧ o ≤ 2 := by
    simp [crashed, boot, ingest, lead] at applied
    rcases applied with ⟨rfl, rfl⟩ | ⟨rfl, rfl⟩ <;> decide
  rcases replayed with ⟨rfl, below⟩
  exact below.trans passed

end Blaze
