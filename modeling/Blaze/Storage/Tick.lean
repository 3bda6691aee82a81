import Blaze.Storage.Flush

/-!
# The flush tick

A tick seals the active chunk, reads the latest snapshot, publishes a merge that
has finished, starts the next one, and commits the sealed segments with the
routing layer that covers them.  It is modelled as a machine that stands still at
each request it makes to the object store, so that other workers, the ingest
thread and the merge thread can act in between; what it computes between two
requests is one step.
-/

namespace Blaze

/-- The object store: routing files and data files by the identifier in their
name, the metadata objects, and the next unused identifier. -/
structure ObjectStore where
  puffins : Std.TreeMap Nat PuffinBase
  data : Std.TreeMap Nat (List Row)
  snapshots : Snapshots
  nextUuid : Nat

namespace ObjectStore

def empty : ObjectStore :=
  ⟨∅, ∅, ∅, 0⟩

/-- The name of the next object written for `sequence`. -/
def freshPath (store : ObjectStore) (sequence : Nat) : ObjectPath :=
  ⟨sequence, store.nextUuid⟩

def putPuffin (store : ObjectStore) (file : PuffinBase) : ObjectStore :=
  { store with
    puffins := store.puffins.insert store.nextUuid file
    nextUuid := store.nextUuid + 1 }

def putData (store : ObjectStore) (rows : List Row) : ObjectStore :=
  { store with
    data := store.data.insert store.nextUuid rows
    nextUuid := store.nextUuid + 1 }

/-- Publish a snapshot unless its sequence is taken. -/
def commit (store : ObjectStore) (snapshot : SnapshotMeta) : ObjectStore :=
  { store with snapshots := (SnapshotCatalog.commit store.snapshots snapshot).1 }

/-- Whether the sequence of a snapshot is still free. -/
def Free (store : ObjectStore) (sequence : Nat) : Prop :=
  sequence ∉ store.snapshots

instance (store : ObjectStore) (sequence : Nat) : Decidable (store.Free sequence) :=
  inferInstanceAs (Decidable (sequence ∉ store.snapshots))

end ObjectStore

/-- What the tick has read from the catalog, and the sequence it will commit
at. -/
structure Observed where
  latest : Option SnapshotMeta
  sequence : Nat

namespace Observed

/-- The observation a tick starts from. -/
def new (latest : Option SnapshotMeta) : Observed :=
  ⟨latest, (latest.map fun snapshot => snapshot.sequence + 1).getD 1⟩

/-- The whole previous position. -/
def prevPosition (seen : Observed) : StreamPosition :=
  (seen.latest.map SnapshotMeta.streamPosition).getD StreamPosition.new

/-- After a merge took the sequence, the data batch follows at the next. -/
def next (seen : Observed) : Observed :=
  { seen with sequence := seen.sequence + 1 }

end Observed

/-- The sealed segments a tick persists: their rows, their extent, and the
cumulative position the snapshot will carry. -/
structure Batch where
  rows : List Row
  first : StreamPosition
  last : StreamPosition
  position : StreamPosition

namespace Batch

/-- The highest offsets of the segments. -/
def fileLast (segments : List Segment) : StreamPosition :=
  segments.foldl (fun position segment => position.merge segment.last) StreamPosition.new

/-- Keep the lower of two offsets of one partition. -/
def lower (low : Std.TreeMap PartitionId Nat) (entry : PartitionId × Nat) :
    Std.TreeMap PartitionId Nat :=
  low.insert entry.1 (match low[entry.1]? with
    | none => entry.2
    | some held => min held entry.2)

/-- The lowest offsets of the segments. -/
def fileFirst (segments : List Segment) : StreamPosition :=
  let low := segments.foldl
    (fun low segment => segment.first.offsets.toList.foldl lower low)
    (∅ : Std.TreeMap PartitionId Nat)
  StreamPosition.fromList low.toList

def new (seen : Observed) (segments : List Segment) : Batch where
  rows := segments.flatMap Segment.rows
  first := fileFirst segments
  last := fileLast segments
  position := seen.prevPosition.merge (fileLast segments)

/-- The data file the batch is written to. -/
def dataFile (batch : Batch) (path : ObjectPath) : DataFileMeta where
  path := path
  rows := batch.rows.length
  minOffset := batch.first.asScalar.getD 0
  maxOffset := batch.position.asScalar.getD 0
  firstPosition := batch.first
  lastPosition := batch.last

end Batch

/-- A finished merge on its way into the catalog: the stack it is spliced into,
where it goes, and the file. -/
structure Publication where
  pending : PendingMerge
  file : PuffinBase
  current : LocalLayers
  range : RunRange

namespace Publication

/-- How the catalog describes the merged run: it inherits the span of what it
subsumed. -/
def mergedMeta (publication : Publication) (path : ObjectPath) : RunMeta where
  path := path
  level := publication.pending.level
  minSequence := publication.pending.minSequence
  maxSequence := publication.pending.maxSequence

/-- The local files in the spliced order. -/
def localPaths (publication : Publication) : List LocalPath :=
  (publication.current.runs.take publication.range.start).map LocalRun.path ++
    publication.pending.path ::
      (publication.current.runs.drop publication.range.stop).map LocalRun.path

end Publication

/-- Where a tick stands: idle with the result of the last one, or at a request.
A merge may be published before or, with inline merges, again after the next one
was started. -/
inductive TickState where
  | idle (result : Except TickError Unit)
  | readLatest
  | putMerge (seen : Observed) (again : Bool) (publication : Publication)
  | commitMerge (seen : Observed) (again : Bool) (publication : Publication)
      (snapshot : SnapshotMeta)
  | awaitMerge (seen : Observed)
  | putData (seen : Observed) (batch : Batch)
  | putPuffin (seen : Observed) (batch : Batch) (dataPath : ObjectPath) (file : PuffinBase)
      (layer : Layer)
  | commitData (seen : Observed) (batch : Batch) (snapshot : SnapshotMeta)

/-- A running worker: the forest it serves, its buffer, where its pipeline stands
in the stream and the record between forest and buffer, the stack, the merge in
flight, the highest sequence its catalog has observed, and its tick. -/
structure Worker where
  forest : ScopedForest LayeredBase
  buffer : EdgeBuffer
  position : StreamPosition
  applying : Option Record
  layers : Option LocalLayers
  pendingMerge : Option PendingMerge
  cachedSeq : Nat
  tick : TickState

/-- How a request to the store ends.  A reply may be lost after the request took
effect. -/
inductive Reply where
  | done
  | failed
  | lost
  deriving DecidableEq, Repr

/-- What a step of a tick finds in its surroundings: whether the elector names it
leader, how its request ends, whether the local disk works, and the time. -/
structure TickInput where
  leader : Bool
  reply : Reply
  diskOk : Bool
  nowMs : Int
  deriving DecidableEq, Repr

namespace Worker

/-- The tick returns. -/
def finish (w : Worker) (result : Except TickError Unit) : Worker :=
  { w with tick := .idle result }

/-- Collect the sealed segments; without any the tick is over. -/
def batch (w : Worker) (seen : Observed) : Worker :=
  if w.buffer.sealed.isEmpty then
    w.finish (.ok ())
  else
    { w with tick := .putData seen (Batch.new seen w.buffer.sealed) }

/-- Start a merge of whichever runs the tiering policy picks, if one is due and
none is in flight. -/
def startMerge (config : FlusherConfig) (w : Worker) (sequence : Nat) :
    Except TickError Worker :=
  if !config.diskMode || w.pendingMerge.isSome then
    .ok w
  else
    match w.layers with
    | none => .ok w
    | some current =>
        if !current.fullyCommitted then
          .ok w
        else
          match pickMerge (current.runs.map LocalRun.level) config.tierFanout
              config.maxDeltaLayers with
          | none => .ok w
          | some range =>
              let inputs := (current.runs.take range.stop).drop range.start
              let level := mergedLevel inputs
              match current.base.slice range.start range.stop with
              | .error text => .error (.message text)
              | .ok stack =>
                  .ok { w with
                    pendingMerge := some
                      { finished := none
                        inputs := inputs.map LocalRun.path
                        stack
                        level
                        minSequence := (inputs.head?.map LocalRun.minSequence).getD 0
                        maxSequence := (inputs.getLast?.map LocalRun.maxSequence).getD 0
                        path := .merged sequence level } }

/-- Go on after a merge was or was not published. -/
def afterAdopt (config : FlusherConfig) (w : Worker) (seen : Observed) (again : Bool) : Worker :=
  if again then
    w.batch seen
  else
    match w.startMerge config seen.sequence with
    | .error error => w.finish (.error error)
    | .ok w => if config.inlineMerges then { w with tick := .awaitMerge seen } else w.batch seen

/-- Take a merge that has finished and upload it, unless it no longer describes
the stack. -/
def adoptMerge (config : FlusherConfig) (w : Worker) (seen : Observed) (again : Bool) : Worker :=
  match w.pendingMerge with
  | none => w.afterAdopt config seen again
  | some pending =>
      match pending.finished with
      | none => w.afterAdopt config seen again
      | some result =>
          let w := { w with pendingMerge := none }
          match result, w.layers with
          | .ok file, some current =>
              match locateRunWindow current.runs pending.inputs with
              | none => w.afterAdopt config seen again
              | some range =>
                  if current.fullyCommitted then
                    { w with tick := .putMerge seen again ⟨pending, file, current, range⟩ }
                  else
                    w.afterAdopt config seen again
          | _, _ => w.afterAdopt config seen again

/-- The snapshot a merge is published as: the previous position and no data
files. -/
def mergeSnapshot (config : FlusherConfig) (seen : Observed) (path : ObjectPath)
    (runs : List RunMeta) (nowMs : Int) : SnapshotMeta :=
  let baseSequence := (runs.head?.map RunMeta.maxSequence).getD 0
  { sequence := seen.sequence
    committedAtMs := nowMs
    watermark := seen.prevPosition.asScalar.getD 0
    position := seen.prevPosition
    stream := config.stream
    dataFiles := []
    puffinPath := path
    committer := config.workerId
    baseSequence
    deltaChainLen := seen.sequence - baseSequence
    runs
    formatVersion := snapshotFormat runs seen.prevPosition }

/-- Describe the spliced stack, once the merged run is uploaded at `path`. -/
def publishMerge (config : FlusherConfig) (w : Worker) (seen : Observed) (again : Bool)
    (publication : Publication) (path : ObjectPath) (nowMs : Int) : Worker :=
  match spliceRunSet publication.current.runs publication.range (publication.mergedMeta path)
      seen.sequence with
  | none => w.afterAdopt config seen again
  | some runs =>
      { w with
        tick := .commitMerge seen again publication
          (mergeSnapshot config seen path runs nowMs) }

/-- The stack after a merge was committed with the given run set. -/
def splicedLayers (spliced : LayeredBase) (runs : List RunMeta) (publication : Publication) :
    LocalLayers where
  base := spliced
  runs := (runs.zip publication.localPaths).map fun entry => LocalRun.committed entry.1 entry.2

/-- Serve from the spliced stack, once the merge is committed as `snapshot`. -/
def spliceMerge (config : FlusherConfig) (w : Worker) (seen : Observed) (again : Bool)
    (publication : Publication) (snapshot : SnapshotMeta) (diskOk : Bool) : Worker :=
  if !diskOk then
    w.finish (.error .disk)
  else
    match publication.current.base.spliced publication.range.start publication.range.stop
        publication.file with
    | .error text => w.finish (.error (.message text))
    | .ok spliced =>
        { w with
          forest := w.forest.swapBase spliced
          layers := some (splicedLayers spliced snapshot.runs publication)
          }.afterAdopt config seen.next again

/-- The routing file for a batch: a folded layer, or in RAM mode the whole
map. -/
def foldForCommit (config : FlusherConfig) (w : Worker) (sequence : Nat) (diskOk : Bool) :
    Worker × Except TickError (PuffinBase × Layer) :=
  let folded := fold config w.forest w.layers sequence true diskOk
  let w := { w with forest := folded.forest, layers := folded.layers }
  match folded.file with
  | .error error => (w, .error error)
  | .ok (some file) => (w, .ok file)
  | .ok none =>
      let (forest, calls) := w.forest.compactInto
      ({ w with forest }, .ok (writeBase calls, .base))

/-- The runs a commit names, with the file just uploaded at `puffinPath` as the
newest. -/
def commitRuns (w : Worker) (puffinPath : ObjectPath) : List RunMeta :=
  (w.layers.bind fun layers => layers.runMetas puffinPath).getD []

/-- The snapshot a batch is committed as. -/
def dataSnapshot (config : FlusherConfig) (w : Worker) (seen : Observed) (batch : Batch)
    (dataPath puffinPath : ObjectPath) (layer : Layer) (nowMs : Int) : SnapshotMeta :=
  let runs := w.commitRuns puffinPath
  let baseSequence := match layer with
    | .base => seen.sequence
    | .delta baseSequence => baseSequence
  { sequence := seen.sequence
    committedAtMs := nowMs
    watermark := batch.position.asScalar.getD 0
    position := batch.position
    stream := config.stream
    dataFiles := [batch.dataFile dataPath]
    puffinPath := puffinPath
    committer := config.workerId
    baseSequence
    deltaChainLen := seen.sequence - baseSequence
    runs
    formatVersion := snapshotFormat runs batch.position }

/-- Whether the snapshot may follow what the tick read. -/
def advances (seen : Observed) (snapshot : SnapshotMeta) : Except String Unit :=
  match seen.latest with
  | none => .ok ()
  | some previous => snapshot.advancesFrom previous

/-- Drop the segments the observed snapshot covers. -/
def dropCovered (w : Worker) (latest : Option SnapshotMeta) : Worker :=
  { w with
    buffer := match latest with
      | none => w.buffer
      | some snapshot => w.buffer.dropCommitted snapshot.streamPosition }

/-- A follower folds locally when its memtable is large, and never commits. -/
def follow (config : FlusherConfig) (w : Worker) (sequence : Nat) (diskOk : Bool) : Worker :=
  let folded := fold config w.forest w.layers sequence false diskOk
  { w with
    forest := folded.forest
    layers := folded.layers
    tick := .idle (folded.file.map fun _ => ()) }

/-- What the tick does with the snapshot it read. -/
def observe (config : FlusherConfig) (w : Worker) (latest : Option SnapshotMeta)
    (input : TickInput) : Worker :=
  let seen := Observed.new latest
  if input.leader then
    (w.dropCovered latest).adoptMerge config seen false
  else
    (w.dropCovered latest).follow config seen.sequence input.diskOk

/-- The first part of a tick: seal the active chunk, then ask for the latest
snapshot. -/
def startTick (w : Worker) : Option Worker :=
  match w.tick with
  | .idle _ => some { w with buffer := w.buffer.sealActive, tick := .readLatest }
  | _ => none

/-- The reply to the request for the latest snapshot. -/
def readStep (config : FlusherConfig) (input : TickInput) (store : ObjectStore) (w : Worker) :
    ObjectStore × Worker :=
  match input.reply with
  | .done =>
      let (cachedSeq, found) := SnapshotCatalog.latest store.snapshots w.cachedSeq
      let w := { w with cachedSeq }
      match found with
      | .error text => (store, w.finish (.error (.message text)))
      | .ok latest => (store, w.observe config latest input)
  | _ => (store, w.finish (.error .request))

/-- The reply to the upload of a merged run. -/
def putMergeStep (config : FlusherConfig) (input : TickInput) (store : ObjectStore) (w : Worker)
    (seen : Observed) (again : Bool) (publication : Publication) : ObjectStore × Worker :=
  match input.reply with
  | .done =>
      (store.putPuffin publication.file,
        w.publishMerge config seen again publication (store.freshPath seen.sequence) input.nowMs)
  | .failed => (store, w.finish (.error .request))
  | .lost => (store.putPuffin publication.file, w.finish (.error .request))

/-- The reply to the commit of a merge. -/
def commitMergeStep (config : FlusherConfig) (input : TickInput) (store : ObjectStore)
    (w : Worker) (seen : Observed) (again : Bool) (publication : Publication)
    (snapshot : SnapshotMeta) : ObjectStore × Worker :=
  match input.reply with
  | .done =>
      match (SnapshotCatalog.commit store.snapshots snapshot).2 with
      | .conflict => (store, w.afterAdopt config seen again)
      | .committed =>
          (store.commit snapshot,
            { w with cachedSeq := max w.cachedSeq snapshot.sequence }.spliceMerge config seen
              again publication snapshot input.diskOk)
  | .failed => (store, w.finish (.error .request))
  | .lost => (store.commit snapshot, w.finish (.error .request))

/-- The reply to the upload of a data file. -/
def putDataStep (config : FlusherConfig) (input : TickInput) (store : ObjectStore) (w : Worker)
    (seen : Observed) (batch : Batch) : ObjectStore × Worker :=
  match input.reply with
  | .done =>
      let (w, written) := w.foldForCommit config seen.sequence input.diskOk
      match written with
      | .error error => (store.putData batch.rows, w.finish (.error error))
      | .ok (file, layer) =>
          (store.putData batch.rows,
            { w with
              tick := .putPuffin seen batch (store.freshPath seen.sequence) file layer })
  | .failed => (store, w.finish (.error .request))
  | .lost => (store.putData batch.rows, w.finish (.error .request))

/-- The reply to the upload of the routing file of a batch. -/
def putPuffinStep (config : FlusherConfig) (input : TickInput) (store : ObjectStore)
    (w : Worker) (seen : Observed) (batch : Batch) (dataPath : ObjectPath) (file : PuffinBase)
    (layer : Layer) : ObjectStore × Worker :=
  match input.reply with
  | .done =>
      let snapshot := w.dataSnapshot config seen batch dataPath (store.freshPath seen.sequence)
        layer input.nowMs
      match advances seen snapshot with
      | .error text => (store.putPuffin file, w.finish (.error (.message text)))
      | .ok () => (store.putPuffin file, { w with tick := .commitData seen batch snapshot })
  | .failed => (store, w.finish (.error .request))
  | .lost => (store.putPuffin file, w.finish (.error .request))

/-- The batch is in the catalog: its segments can go, and a delta may be layered
on its routing file. -/
def batchCommitted (w : Worker) (batch : Batch) (snapshot : SnapshotMeta) : Worker :=
  { w with
    cachedSeq := max w.cachedSeq snapshot.sequence
    buffer := w.buffer.dropCommitted batch.position
    layers := w.layers.map fun layers => layers.markCommitted snapshot.puffinPath
    tick := .idle (.ok ()) }

/-- The reply to the commit of a batch. -/
def commitDataStep (input : TickInput) (store : ObjectStore) (w : Worker) (batch : Batch)
    (snapshot : SnapshotMeta) : ObjectStore × Worker :=
  match input.reply with
  | .done =>
      match (SnapshotCatalog.commit store.snapshots snapshot).2 with
      | .conflict => (store, w.finish (.ok ()))
      | .committed => (store.commit snapshot, w.batchCommitted batch snapshot)
  | .failed => (store, w.finish (.error .request))
  | .lost => (store.commit snapshot, w.finish (.error .request))

/-- Take the reply to the request the tick stands at and go on to the next
request. -/
def tickStep (config : FlusherConfig) (input : TickInput) (store : ObjectStore) (w : Worker) :
    Option (ObjectStore × Worker) :=
  match w.tick with
  | .idle _ => none
  | .readLatest => some (w.readStep config input store)
  | .putMerge seen again publication =>
      some (w.putMergeStep config input store seen again publication)
  | .commitMerge seen again publication snapshot =>
      some (w.commitMergeStep config input store seen again publication snapshot)
  | .awaitMerge seen =>
      -- blocked until the merge in flight has finished
      if w.pendingMerge.all fun pending => pending.finished.isSome then
        some (store, w.adoptMerge config seen true)
      else
        none
  | .putData seen batch => some (w.putDataStep config input store seen batch)
  | .putPuffin seen batch dataPath file layer =>
      some (w.putPuffinStep config input store seen batch dataPath file layer)
  | .commitData _ batch snapshot => some (w.commitDataStep input store batch snapshot)

end Worker

end Blaze
