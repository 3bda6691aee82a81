import Blaze.Lib.Interleaving
import Blaze.Storage.Hydrate
import Blaze.Storage.Tick

/-!
# Workers sharing one table

Any number of workers consume one partitioned log, serve from their own forest,
and commit to one object store.  A worker boots in three steps, each with its own
catalog read; it then ingests records one by one while its flush loop ticks and
its merge thread works.  It may crash at any moment and boot again.
-/

namespace Blaze

/-- The runs making up committed routing state as of `latest`, oldest span
first. -/
def committedRuns (snapshots : Snapshots) (latest : SnapshotMeta) :
    Except String (List RunMeta) := do
  match ← latest.runSet with
  | .runs runs => return runs
  | .sequencesOnly first last =>
      (List.range' first (last + 1 - first)).mapM fun sequence => do
        let snapshot ←
          if sequence = latest.sequence then pure latest
          else SnapshotCatalog.get snapshots sequence
        return { path := snapshot.puffinPath
                 level := 0
                 minSequence := sequence
                 maxSequence := sequence }

/-- Download one routing file. -/
def fetchRun (store : ObjectStore) (run : RunMeta) : Except String PuffinBase :=
  match store.puffins[run.path.uuid]? with
  | none => .error "object not found"
  | some file => .ok file

/-- Download every routing file of a run set, oldest first. -/
def fetchRuns (store : ObjectStore) (runs : List RunMeta) : Except String (List PuffinBase) :=
  runs.mapM (fetchRun store)

/-- A forest with or without the member index. -/
def newForest (config : FlusherConfig) (forest : ScopedForest LayeredBase) :
    ScopedForest LayeredBase :=
  if config.memberIndex then forest.trackingMembers else forest

/-- Open the committed routing state as a stack of mapped files. -/
def openBase (store : ObjectStore) (latest : SnapshotMeta) :
    Except String (LayeredBase × LocalLayers) := do
  let runs ← committedRuns store.snapshots latest
  let files ← fetchRuns store runs
  let base ← LayeredBase.fromLayers files
  return (base, ⟨base, runs.map fun run => LocalRun.committed run (.cached run)⟩)

/-- A worker that has loaded routing state but does not ingest yet. -/
structure Boot where
  forest : ScopedForest LayeredBase
  layers : Option LocalLayers
  /-- The snapshot the routing state was loaded from. -/
  hydrated : Option SnapshotMeta
  cachedSeq : Nat
  streamChecked : Bool

/-- Load routing state in the configured mode: `hydrate_from_catalog` in RAM
mode, `open_base_from_catalog` in disk mode. -/
def loadState (config : FlusherConfig) (store : ObjectStore) : Except String Boot := do
  let (cachedSeq, found) := SnapshotCatalog.latest store.snapshots 0
  match ← found with
  | none => return ⟨newForest config ScopedForest.new, none, none, cachedSeq, false⟩
  | some latest =>
      if config.diskMode then
        let (base, layers) ← openBase store latest
        return ⟨newForest config (ScopedForest.withBase base), some layers, some latest,
          cachedSeq, false⟩
      else
        let runs ← committedRuns store.snapshots latest
        let files ← fetchRuns store runs
        return ⟨hydrateAll (newForest config ScopedForest.new) files, none, some latest,
          cachedSeq, false⟩

/-- Whether this worker's stream may continue the one the table was built from. -/
def streamAccepted (config : FlusherConfig) (latest : Option SnapshotMeta) : Bool :=
  match config.stream, latest.bind SnapshotMeta.stream with
  | some mine, some committed => committed.sameStream mine || config.allowStreamChange
  | _, _ => true

/-- What a worker process is doing. -/
inductive Process where
  | offline
  | booting (boot : Boot)
  | running (worker : Worker)

/-- An ordered log per partition.  Offset zero is reserved for "nothing
applied". -/
structure Log where
  record : PartitionId → Nat → Option EdgeEvent
  reserved : ∀ p, record p 0 = none

namespace Log

/-- Offset `o` is the next record of partition `p` after the position. -/
def IsNext (log : Log) (position : StreamPosition) (p : PartitionId) (o : Nat) : Prop :=
  position.get p < o ∧ ∀ between < o, position.get p < between → log.record p between = none

instance (log : Log) (position : StreamPosition) (p : PartitionId) (o : Nat) :
    Decidable (log.IsNext position p o) :=
  inferInstanceAs (Decidable (position.get p < o ∧
    ∀ between < o, position.get p < between → log.record p between = none))

end Log

/-- What a process can do: boot by loading state, checking the stream and seeking
the log; apply the next record of a partition to the forest and append it to the
buffer; finish the merge in flight; tick; crash. -/
inductive Act where
  | boot
  | checkStream
  | seek
  | apply (p : PartitionId) (o : Nat)
  | append
  | finishMerge (diskOk : Bool)
  | startTick
  | tick (input : TickInput)
  | crash
  deriving DecidableEq, Repr

namespace Boot

/-- Check the stream identity against the latest snapshot. -/
def checkStream (config : FlusherConfig) (store : ObjectStore) (boot : Boot) : Process :=
  if config.stream.isNone then
    .booting { boot with streamChecked := true }
  else
    let (cachedSeq, found) := SnapshotCatalog.latest store.snapshots boot.cachedSeq
    match found with
    | .error _ => .offline
    | .ok latest =>
        if streamAccepted config latest then
          .booting { boot with cachedSeq, streamChecked := true }
        else
          .offline

/-- Where the pipeline resumes, given the snapshot read for it. -/
def startPosition (boot : Boot) (latest : Option SnapshotMeta) : StreamPosition :=
  match latest with
  | some snapshot => snapshot.streamPosition
  | none => StreamPosition.single ((boot.hydrated.map SnapshotMeta.watermark).getD 0)

/-- Read the start position and begin to ingest from there. -/
def seek (store : ObjectStore) (boot : Boot) : Process :=
  let (cachedSeq, found) := SnapshotCatalog.latest store.snapshots boot.cachedSeq
  match found with
  | .error _ => .offline
  | .ok latest =>
      .running
        { forest := boot.forest
          buffer := EdgeBuffer.new
          position := boot.startPosition latest
          applying := none
          layers := boot.layers
          pendingMerge := none
          cachedSeq
          tick := .idle (.ok ()) }

end Boot

namespace Worker

/-- Apply the next record of a partition to the forest. -/
def applyRecord (log : Log) (w : Worker) (p : PartitionId) (o : Nat) : Option Worker :=
  if w.applying.isNone ∧ log.IsNext w.position p o then
    (log.record p o).map fun event =>
      { w with forest := w.forest.apply event, applying := some ⟨p, o, event⟩ }
  else
    none

/-- Append the applied record to the buffer and advance the position. -/
def appendRecord (w : Worker) : Option Worker :=
  w.applying.map fun record =>
    { w with
      buffer := w.buffer.append record
      position := w.position.advance record.partition record.offset
      applying := none }

/-- The merge thread writes its file, or fails to. -/
def finishMerge (w : Worker) (diskOk : Bool) : Option Worker :=
  match w.pendingMerge with
  | none => none
  | some pending =>
      if pending.finished.isSome then
        none
      else
        some { w with
          pendingMerge := some { pending with
            finished := some (if diskOk then .ok (compactLayers pending.stack)
              else .error .disk) } }

end Worker

/-- One step of one process against the store. -/
def Process.step (log : Log) (config : FlusherConfig) (store : ObjectStore) :
    Process → Act → Option (ObjectStore × Process)
  | .offline, .boot =>
      match loadState config store with
      | .error _ => some (store, .offline)
      | .ok boot => some (store, .booting boot)
  | .booting boot, .checkStream =>
      if boot.streamChecked then none else some (store, boot.checkStream config store)
  | .booting boot, .seek => if boot.streamChecked then some (store, boot.seek store) else none
  | .running w, .apply p o => (w.applyRecord log p o).map fun w => (store, .running w)
  | .running w, .append => w.appendRecord.map fun w => (store, .running w)
  | .running w, .finishMerge diskOk => (w.finishMerge diskOk).map fun w => (store, .running w)
  | .running w, .startTick => w.startTick.map fun w => (store, .running w)
  | .running w, .tick input =>
      (w.tickStep config input store).map fun result => (result.1, .running result.2)
  | .booting _, .crash => some (store, .offline)
  | .running _, .crash => some (store, .offline)
  | _, _ => none

/-- The table and the workers on it. -/
abbrev System := Interleaving.State ObjectStore Process

/-- One worker does something. -/
abbrev Action := Interleaving.Action Act

namespace System

/-- An empty table, nobody running. -/
def init : System :=
  ⟨ObjectStore.empty, fun _ => .offline⟩

/-- One worker takes one step. -/
def step (log : Log) (config : Nat → FlusherConfig) : System → Action → Option System :=
  Interleaving.step fun i store process act => process.step log (config i) store act

/-- Perform a list of actions on an empty table. -/
def run (log : Log) (config : Nat → FlusherConfig) (actions : List Action) : Option System :=
  Execution.run (step log config) actions init

end System

/-! ## Scripts

Building blocks for concrete executions, and what can be asked of the states they
reach. -/

/-- The boot that is under way. -/
def Process.boot? : Process → Option Boot
  | .booting boot => some boot
  | _ => none

/-- The worker of a running process. -/
def Process.worker? : Process → Option Worker
  | .running w => some w
  | _ => none

/-- Whether the tick is about to read the catalog. -/
def TickState.reading : TickState → Bool
  | .readLatest => true
  | _ => false

/-- What the last tick returned. -/
def TickState.result? : TickState → Option (Except TickError Unit)
  | .idle result => some result
  | _ => none

theorem Process.eq_booting {process : Process} {boot : Boot} (held : process.boot? = some boot) :
    process = .booting boot := by
  cases process with
  | booting boot' => exact congrArg Process.booting (Option.some.inj held)
  | offline => cases held
  | running w => cases held

theorem Process.eq_running {process : Process} {w : Worker} (held : process.worker? = some w) :
    process = .running w := by
  cases process with
  | running w' => exact congrArg Process.running (Option.some.inj held)
  | offline => cases held
  | booting boot => cases held

theorem TickState.eq_readLatest {tick : TickState} (reads : tick.reading = true) :
    tick = .readLatest := by
  cases tick with
  | readLatest => rfl
  | _ => cases reads

theorem TickState.eq_idle {tick : TickState} {result : Except TickError Unit}
    (returned : tick.result? = some result) : tick = .idle result := by
  cases tick with
  | idle result' => exact congrArg TickState.idle (Option.some.inj returned)
  | _ => cases returned

namespace Script

/-- A worker with every trigger as low as it goes: it folds as a follower, and
merges two runs of a level at once. -/
def worker (diskMode : Bool) : FlusherConfig where
  workerId := "worker"
  stream := none
  diskMode := diskMode
  memberIndex := false
  followerFoldAfterLinks := 0
  maxDeltaLayers := 24
  tierFanout := 2
  inlineMerges := false
  allowStreamChange := false

/-- Every partition holds `length` records, each joining a node of its own range
to the next one. -/
def lines (length : Nat) : Log where
  record p o :=
    if 1 ≤ o ∧ o ≤ length then
      some { src := 100 * p + o, dst := 100 * p + o + 1, visibility := .global, eventTimeMs := 0,
             props := none }
    else
      none
  reserved _ := by simp

/-- A single partition with such records. -/
def line (length : Nat) : Log where
  record p o := if p = 0 then (lines length).record 0 o else none
  reserved p := by simp [(lines length).reserved]

def boot (i : Nat) : List Action :=
  [⟨i, .boot⟩, ⟨i, .checkStream⟩, ⟨i, .seek⟩]

/-- Ingest one record. -/
def ingest (i : Nat) (p : PartitionId) (o : Nat) : List Action :=
  [⟨i, .apply p o⟩, ⟨i, .append⟩]

/-- The surroundings of a leader whose requests all succeed. -/
def leading : TickInput :=
  { leader := true, reply := .done, diskOk := true, nowMs := 0 }

/-- A tick of a leader that gets `requests` replies. -/
def lead (i requests : Nat) : List Action :=
  ⟨i, .startTick⟩ :: List.replicate requests ⟨i, .tick leading⟩

end Script

end Blaze
