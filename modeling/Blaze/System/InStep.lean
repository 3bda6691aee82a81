import Blaze.System.Routing

/-!
# A worker in step with the catalog

When one worker is the only one to commit, nobody commits between its reads and its
commits, so what it has read is still the newest snapshot, and a stack that is all in
the catalog ends there.  The replies to its batches may get lost.  A merge that took
effect without the worker hearing of it would leave the stack behind the catalog.
-/

namespace Blaze

variable {config : FlusherConfig} {layers : Option LocalLayers} {layer : Layer}
  {store : ObjectStore} {log : Log} {sequence : Nat} {snapshot : SnapshotMeta} {seen : Observed}
  {bound : Set EdgeEvent} {s : System}

/-! ## The worker and the catalog -/

/-- The batch of the tick reaches no further than the pipeline. -/
def TickState.Passed (position : StreamPosition) : TickState → Prop
  | .putData _ batch => ∀ p, batch.position.get p ≤ position.get p
  | .putPuffin _ batch _ _ _ => ∀ p, batch.position.get p ≤ position.get p
  | .commitData _ batch _ => ∀ p, batch.position.get p ≤ position.get p
  | _ => True

/-- A stack that is all in the catalog ends at the newest snapshot. -/
def EndsNewest (store : ObjectStore) (layers : Option LocalLayers) : Prop :=
  ∀ current ∈ layers, current.fullyCommitted = true →
    ∀ newest ∈ current.runs.getLast?, newest.maxSequence = store.count

/-- The tick has read the catalog and not returned yet. -/
def TickState.HasRead : TickState → Prop
  | .idle _ => False
  | .readLatest => False
  | _ => True

/-- What the tick has read is the newest snapshot, and the worker's state covers the
catalog. -/
structure Worker.InStep (store : ObjectStore) (w : Worker) : Prop where
  read : w.tick.HasRead → w.cachedSeq = store.count
  ahead : ∀ p, store.positionAt store.count p ≤ w.position.get p
  stack : EndsNewest store w.layers
  tick : w.tick.Passed w.position

def Process.InStep (store : ObjectStore) : Process → Prop
  | .offline => True
  | .booting boot => boot.cachedSeq = store.count ∧
      boot.hydrated = store.snapshots[store.count]? ∧ EndsNewest store boot.layers
  | .running w => w.InStep store

/-- A step that does not lose the reply to the commit of a merge, and that can open the
merged file. -/
def MergesAnswered : Process → Act → Prop
  | .running w, .tick input =>
      match w.tick with
      | .commitMerge _ _ _ _ =>
          input.reply ≠ .lost ∧ (input.reply = .done → input.diskOk = true)
      | _ => True
  | _, _ => True

section Guards

variable {process : Process} {act : Act}

theorem Process.InStep.startsHydrated (inStep : process.InStep store) :
    StartsHydrated store process act := by
  cases process with
  | booting boot =>
    cases act with
    | seek =>
      simp only [StartsHydrated, Boot.hydratedStreamPosition, ObjectStore.streamPositionAt,
        inStep.2.1]
      exact StreamPosition.dominates_refl _
    | _ => trivial
  | _ => trivial

/-- Whoever is in step keeps up. -/
theorem Process.InStep.keepsUp (order : process.InOrder store) (runs : process.RunsOk config store)
    (inStep : process.InStep store) : KeepsUp store process act := by
  cases process with
  | running w =>
    cases act with
    | tick input =>
      have tickOrder := order.tick
      have tick := runs.tick
      have read := inStep.read
      cases stands : w.tick with
      | putData seen batch =>
        simp only [KeepsUp, stands]
        rw [stands] at tickOrder read
        intro reply free
        constructor
        · rw [StreamPosition.dominates_iff]
          intro p
          rw [tickOrder.1.position, read trivial]
          exact inStep.ahead p
        · intro current held committed newest isNewest
          rw [inStep.stack current held committed newest isNewest, tickOrder.1.next, read trivial]
      | commitMerge seen again publication snapshot =>
        simp only [KeepsUp, stands]
        rw [stands] at tickOrder tick read
        intro arrived free newest isNewest
        rw [inStep.stack _ tick.1.current tick.1.committed newest isNewest,
          StreamPosition.dominates_iff]
        intro p
        rw [ObjectStore.get_streamPositionAt, tickOrder.1.position, read trivial]
      | _ => simp only [KeepsUp, stands]
    | _ => trivial
  | _ => trivial

end Guards

/-! ## Steps -/

section Steps

variable {bound : Set EdgeEvent} {input : TickInput} {store' : ObjectStore} {w w' : Worker}

/-- Uploads do not matter to the catalog. -/
theorem ObjectStore.count_congr (same : store'.snapshots = store.snapshots) :
    store'.count = store.count ∧ ∀ k p, store'.positionAt k p = store.positionAt k p := by
  unfold count positionAt
  rw [same]
  exact ⟨rfl, fun _ _ => rfl⟩

theorem Worker.InStep.uploaded (inStep : w.InStep store)
    (same : store'.snapshots = store.snapshots) : w.InStep store' := by
  rcases ObjectStore.count_congr same with ⟨count, position⟩
  refine ⟨?_, ?_, ?_, inStep.tick⟩
  · rw [count]
    exact inStep.read
  · intro p
    rw [count, position]
    exact inStep.ahead p
  · unfold EndsNewest
    rw [count]
    exact inStep.stack

theorem Worker.InStep.finish (inStep : w.InStep store) (result : Except TickError Unit) :
    (w.finish result).InStep store :=
  ⟨False.elim, inStep.ahead, inStep.stack, trivial⟩

/-- A stack with a run that is not committed is not all in the catalog. -/
theorem endsNewest_of_foldWrites {forest forest' : ScopedForest LayeredBase} {next : LocalLayers}
    {file : PuffinBase} (written : FoldWrites forest sequence layers forest' next file layer) :
    EndsNewest store (some next) := by
  rintro _ ⟨rfl⟩ committed
  cases written with
  | @rebuilt _ _ level first unsettled streamed inherits =>
    have split : [LocalRun.written (.folded sequence true) level first sequence] =
      [] ++ [LocalRun.written (.folded sequence true) level first sequence] := rfl
    rw [LocalLayers.not_fullyCommitted split rfl] at committed
    cases committed
  | layered =>
    rw [LocalLayers.not_fullyCommitted rfl rfl] at committed
    cases committed

/-- A stack that a snapshot describes ends where the snapshot does. -/
theorem endsNewest_of_described {layers : LocalLayers} (assembles : snapshot.Assembles)
    (described : Described layers.runs snapshot.assembled)
    (newest : snapshot.sequence = store.count) : EndsNewest store (some layers) := by
  rintro _ ⟨rfl⟩ committed run isLast
  rcases assembles.last_described described with ⟨last, isLast', ends⟩
  rw [isLast] at isLast'
  cases isLast'
  exact ends.trans newest

/-- The next batch covers what the catalog covers and what the pipeline has
passed. -/
theorem Worker.InStep.proceeds (cached : w.cachedSeq = store.count)
    (ahead : ∀ p, store.positionAt store.count p ≤ w.position.get p)
    (stack : EndsNewest store w.layers) (order : seen.InOrder store w.cachedSeq)
    (data : w'.DataOk log store) (proceeds : w.Proceeds seen w') : w'.InStep store := by
  cases proceeds with
  | refused | nothing => exact ⟨False.elim, ahead, stack, trivial⟩
  | batch nonempty merge =>
    refine ⟨fun _ => cached, ahead, stack, fun p => ?_⟩
    rcases data.buffers with ⟨chunks, recent, buffers⟩
    rw [Batch.get_position_new, order.position, cached]
    exact max_le (ahead p) (buffers.fileLast_le p)
  | await | upload => exact ⟨fun _ => cached, ahead, stack, trivial⟩

/-- The newest run of a stack is committed as the newest snapshot. -/
theorem endsNewest_markCommitted (ready : Ready config store.count layers layer)
    (path : ObjectPath) :
    EndsNewest store (layers.map fun current => current.markCommitted path) := by
  cases ready with
  | ram => rintro current ⟨⟩
  | @disk current older newest _ runs uncommitted reaches named =>
    rintro _ ⟨rfl⟩ committed run isLast
    simp only [LocalLayers.markCommitted, runs, List.getLast?_concat,
      List.dropLast_concat] at isLast
    cases isLast
    exact reaches

/-- A stack whose newest run waits for its commit is not all in the catalog. -/
theorem endsNewest_of_ready (ready : Ready config sequence layers layer) :
    EndsNewest store layers := by
  cases ready with
  | ram => rintro current ⟨⟩
  | disk runs uncommitted =>
    rintro _ ⟨rfl⟩ committed
    rw [LocalLayers.not_fullyCommitted runs uncommitted] at committed
    cases committed

/-- A follower's fold leaves runs that are not in the catalog, or nothing new. -/
theorem Worker.InStep.follow
    (ahead : ∀ p, store.positionAt store.count p ≤ w.position.get p)
    (stack : EndsNewest store w.layers) (sequence : Nat) (diskOk : Bool) :
    (w.follow config sequence diskOk).InStep store := by
  refine ⟨False.elim, ahead, ?_, trivial⟩
  rcases w.follow_effect config sequence diskOk with ⟨folded, effect, same⟩
  rw [same]
  cases effect with
  | kept | fails => exact stack
  | writes disk works written => exact endsNewest_of_foldWrites written

/-- A batch that reached the catalog covers no more than the pipeline has passed. -/
theorem Worker.InStep.batch_ahead (ok : store.InOrder) (order : w.InOrder store)
    (inStep : w.InStep store) {batch : Batch} (stands : w.tick = .commitData seen batch snapshot)
    (free : snapshot.sequence ∉ store.snapshots) (p : PartitionId) :
    (store.commit snapshot).positionAt (store.commit snapshot).count p ≤ w.position.get p := by
  rcases Worker.InOrder.committed ok order stands free with ⟨appended, -⟩
  have tick := inStep.tick
  have tickOrder := order.tick
  rw [stands] at tick tickOrder
  rw [appended.count, ObjectStore.positionAt_of_getElem? appended.stored, tickOrder.2.2.2]
  exact tick p

/-- A step of the tick leaves the worker in step. -/
theorem Worker.InStep.tickEffect (ok : store.InOrder) (order : w.InOrder store)
    (assembles : store.Assembles) (runs : w.RunsOk config store) (data : w.DataOk log store)
    (routed : w.Routed log bound store) (inStep : w.InStep store)
    (answered : MergesAnswered (.running w) (.tick input))
    (effect : Worker.TickEffect config input store w store' w') : w'.InStep store' := by
  have data' := Worker.DataOk.tickEffect ok order data effect
  have tick := inStep.tick
  have tickOrder := order.tick
  have read := inStep.read
  cases effect with
  | readRefused stands reply found => cases (Worker.read_newest ok order.cached found).2
  | follows stands reply found follower =>
    exact Worker.InStep.follow (w := ({ w with cachedSeq := _ }.dropCovered _)) inStep.ahead
      inStep.stack _ _
  | leads stands reply found leader decided =>
    rcases Worker.read_newest ok order.cached found with ⟨rfl, ⟨⟩⟩
    exact Worker.InStep.proceeds (w := ({ w with cachedSeq := store.count }.dropCovered _)) rfl
      inStep.ahead inStep.stack (Worker.observed_inOrder ok) data' decided
  | putMergeFails stands reply uploaded | putDataFails stands reply uploaded
  | putPuffinFails stands reply uploaded =>
    refine (inStep.uploaded ?_).finish _
    rcases uploaded with rfl | rfl <;> rfl
  | undescribable stands reply decided =>
    rw [stands] at tickOrder read
    exact Worker.InStep.proceeds (read trivial) inStep.ahead inStep.stack
      ⟨tickOrder.1, tickOrder.2⟩ data' decided
  | putMerge stands reply described =>
    rw [stands] at read
    exact ⟨fun _ => read trivial, inStep.ahead, inStep.stack, trivial⟩
  | commitMergeLost stands reply =>
    simp only [MergesAnswered, stands] at answered
    exact absurd reply answered.1
  | commitMergeConflict stands reply taken decided =>
    rw [stands] at tickOrder read
    exact Worker.InStep.proceeds (read trivial) inStep.ahead inStep.stack tickOrder.1 data' decided
  | @spliceFails _ _ publication _ _ stands reply free cause =>
    -- the stack has one run per layer, so the splice resolves
    have fits := runs.tick
    rw [stands] at fits
    have aligned := (routed.serving.backed _ fits.1.current).aligned
    rcases aligned.spliced fits.1.within publication.file with ⟨spliced, resolved, -⟩
    simp only [MergesAnswered, stands] at answered
    rcases cause with ⟨broken, -⟩ | ⟨text, -, unresolved⟩
    · rw [answered.2 reply] at broken
      cases broken
    · rw [resolved] at unresolved
      cases unresolved
  | commitMerge stands reply works free resolved decided =>
    rcases Worker.InOrder.merged ok order stands free with ⟨appended, cached, next⟩
    rcases runs.merge_assembles ok order assembles stands with ⟨committed, listed, lengths⟩
    rw [stands] at tickOrder read
    refine Worker.InStep.proceeds (w := { w with cachedSeq := _, forest := _, layers := _ })
      cached (fun p => ?_) ?_ next data' decided
    · rw [appended.count, ObjectStore.positionAt_of_getElem? appended.stored, tickOrder.2.2,
        tickOrder.1.position, read trivial]
      exact inStep.ahead p
    · refine endsNewest_of_described committed ?_ (appended.sequence.trans appended.count.symm)
      rw [SnapshotMeta.assembled_of_ne_nil listed]
      exact described_zip lengths
  | awaits stands decided =>
    rw [stands] at tickOrder read
    exact Worker.InStep.proceeds (read trivial) inStep.ahead inStep.stack tickOrder data' decided
  | foldFails stands reply folded =>
    cases Worker.foldForCommit_effect folded with
    | fails => exact ⟨False.elim, inStep.ahead, inStep.stack, trivial⟩
  | putData stands reply folded =>
    rw [stands] at tick read
    cases Worker.foldForCommit_effect folded with
    | ram => exact ⟨fun _ => read trivial, inStep.ahead, inStep.stack, tick⟩
    | writes disk works written =>
      exact ⟨fun _ => read trivial, inStep.ahead, endsNewest_of_foldWrites written, tick⟩
  | refused => exact ⟨False.elim, inStep.ahead, inStep.stack, trivial⟩
  | putPuffin stands reply checked =>
    rw [stands] at tick read
    exact ⟨fun _ => read trivial, inStep.ahead, inStep.stack, tick⟩
  | @commitDataLost seen batch snapshot stands reply =>
    by_cases taken : snapshot.sequence ∈ store.snapshots
    · rw [ObjectStore.commit_of_mem taken]
      exact inStep.finish _
    · have ready := runs.tick
      have ahead := inStep.batch_ahead ok order stands taken
      rw [stands] at ready
      rcases ready with ⟨layer, ready, -⟩
      exact ⟨False.elim, ahead, endsNewest_of_ready ready, trivial⟩
  | commitData stands reply free =>
    rcases Worker.InOrder.committed ok order stands free with ⟨appended, -, cached⟩
    have ready := runs.tick
    have ahead := inStep.batch_ahead ok order stands free
    rw [stands] at tickOrder ready
    rcases ready with ⟨layer, ready, -⟩
    refine ⟨False.elim, ahead, ?_, trivial⟩
    rw [← tickOrder.2.2.1, appended.sequence, ← appended.count] at ready
    exact endsNewest_markCommitted ready _
  | _ => exact inStep.finish _

end Steps

/-- A worker that has loaded its state has read the newest snapshot. -/
theorem Process.InStep.loaded {store : ObjectStore} {boot : Boot} (ok : store.InOrder)
    (assembles : store.Assembles) (loaded : Loaded config store boot) :
    (Process.booting boot).InStep store := by
  rcases loaded.newest ok with ⟨cached, newest⟩
  refine ⟨cached, newest, ?_⟩
  cases loaded with
  | fresh | hydrated => rintro current ⟨⟩
  | @opened cachedSeq latest base layers disk read mapped =>
    have stored : store.snapshots[store.count]? = some latest := newest.symm
    rcases openBase_spec (assembles _ latest stored) mapped with ⟨-, rfl⟩
    exact endsNewest_of_described (assembles _ latest stored) (described_cached _)
      (ok.named _ latest stored)

theorem Process.InStep.effect {log : Log} {store store' : ObjectStore} {process process' : Process}
    {act : Act} (ok : store.InOrder) (order : process.InOrder store) (assembles : store.Assembles)
    (runs : process.RunsOk config store) (data : process.DataOk log store)
    (routed : process.Routed log bound store) (inStep : process.InStep store)
    (answered : MergesAnswered process act)
    (effect : ProcessEffect log config store process act store' process') :
    process'.InStep store' := by
  cases effect with
  | bootFails => trivial
  | boots loaded => exact Process.InStep.loaded ok assembles (loadState_loaded loaded)
  | checks =>
    refine Boot.checkStream_rule trivial fun cachedSeq source => ⟨?_, inStep.2⟩
    rcases source with rfl | rfl
    · exact inStep.1
    · rw [SnapshotCatalog.latest_of_dense ok.dense order.cached]
  | @seeks boot checked =>
    rcases Boot.seek_spec ok order with ⟨position, start, sought⟩
    rw [sought]
    exact ⟨False.elim, fun p => (start p).ge, inStep.2.2, trivial⟩
  | applies | finishes => exact ⟨inStep.read, inStep.ahead, inStep.stack, inStep.tick⟩
  | @appends w record =>
    have advanced := StreamPosition.get_le_get_advance w.position record.partition record.offset
    refine ⟨inStep.read, fun p => (inStep.ahead p).trans (advanced p), inStep.stack, ?_⟩
    have tick := inStep.tick
    dsimp only
    cases stands : w.tick with
    | putData | putPuffin | commitData =>
      rw [stands] at tick
      exact fun p => (tick p).trans (advanced p)
    | _ => trivial
  | starts => exact ⟨False.elim, inStep.ahead, inStep.stack, trivial⟩
  | ticks effect =>
    exact Worker.InStep.tickEffect ok order assembles runs data routed inStep answered effect
  | crashes => trivial

/-! ## Whole executions -/

namespace System

variable {i : Nat}

def InStep (i : Nat) (s : System) : Prop :=
  (s.process i).InStep s.store

/-- A step of the only worker `i` in which no merge takes effect unheard. -/
def OneWorker (i : Nat) (s : System) (action : Action) : Prop :=
  action.worker = i ∧ MergesAnswered (s.process i) action.act

/-- One step of the only worker. -/
theorem inStep_step {t : System} {action : Action} (routed : s.Routed log bound fun _ => config)
    (inStep : s.InStep i) (one : s.OneWorker i action)
    (consumed : ∀ p o event, action.act = .apply p o → log.record p o = some event →
      event ∈ bound)
    (stepped : step log (fun _ => config) s action = some t) :
    t.Routed log bound (fun _ => config) ∧ t.InStep i := by
  rcases action with ⟨worker, act⟩
  cases one.1
  have parts := routed
  rcases parts with ⟨⟨ordered, runs⟩, data, holds⟩
  constructor
  · exact routed_step routed inStep.startsHydrated (inStep.keepsUp (ordered.own _) (runs.own _))
      consumed stepped
  · rcases step_effect stepped with ⟨store, process, effect, rfl⟩
    unfold InStep
    rw [Interleaving.update_process_self, Interleaving.update_store]
    exact Process.InStep.effect ordered.shared (ordered.own _) runs.shared (runs.own _)
      (data.2.own _) (holds.own _) inStep one.2 effect

/-- The only worker is in step in every state it reaches. -/
theorem inStep_run {actions : List Action} (performed : run log (fun _ => config) actions = some s)
    (one : Execution.Allowed (step log fun _ => config) (OneWorker i) actions init) :
    s.Routed log Set.univ (fun _ => config) ∧ s.InStep i :=
  Execution.run_invariant
    (fun state => state.Routed log Set.univ (fun _ => config) ∧ state.InStep i)
    (fun _ _ _ both one stepped =>
      inStep_step both.1 both.2 one (fun _ _ _ _ _ => Set.mem_univ _) stepped)
    ⟨routed_init, trivial⟩ performed one

end System

end Blaze
