import Blaze.Ingest.Buffer
import Blaze.Storage.Catalog
import Blaze.Storage.Compact
import Blaze.Storage.Tier

/-!
# The local stack and the fold

A worker serves from a stack of mapped routing files and keeps, for each of them,
the catalog identity it has or will have once committed.  Folding drains the
memtable into a new layer: a delta when every run below is committed, and a
self-contained run otherwise.
-/

namespace Blaze

/-- How the worker is set up. -/
structure FlusherConfig where
  workerId : String
  stream : Option StreamId
  /-- Whether a directory for routing files is configured; without one the
  memtable is the state. -/
  diskMode : Bool
  memberIndex : Bool
  followerFoldAfterLinks : Nat
  maxDeltaLayers : Nat
  tierFanout : Nat
  inlineMerges : Bool
  allowStreamChange : Bool

/-- Why a tick gave up: a request to the object store failed, a local file could
not be written or opened, or a check refused to go on. -/
inductive TickError where
  | request
  | disk
  | message (text : String)
  deriving DecidableEq, Repr

/-- The name of a file in the worker's own directory.  A cached run is named
after its span and its object. -/
inductive LocalPath where
  | folded (sequence : Nat) (compact : Bool)
  | merged (sequence level : Nat)
  | cached (run : RunMeta)
  deriving DecidableEq, Repr

/-- One run in the local stack; `remote` is empty while the run exists only on
this worker's disk. -/
structure LocalRun where
  path : LocalPath
  remote : Option ObjectPath
  level : Nat
  minSequence : Nat
  maxSequence : Nat
  deriving DecidableEq, Repr

namespace LocalRun

/-- A run just written to disk. -/
def written (path : LocalPath) (level minSequence maxSequence : Nat) : LocalRun :=
  { path, remote := none, level, minSequence, maxSequence }

/-- A run held locally that the catalog already knows about. -/
def committed (run : RunMeta) (path : LocalPath) : LocalRun :=
  { path
    remote := some run.path
    level := run.level
    minSequence := run.minSequence
    maxSequence := run.maxSequence }

/-- How the catalog describes the run once it is stored at `path`. -/
def toMeta (run : LocalRun) (path : ObjectPath) : RunMeta :=
  { path
    level := run.level
    minSequence := run.minSequence
    maxSequence := run.maxSequence }

/-- The catalog's description of a committed run. -/
def committedMeta? (run : LocalRun) : Option RunMeta :=
  run.remote.map run.toMeta

end LocalRun

/-- The mapped files the worker serves from, one run per layer, oldest span
first. -/
structure LocalLayers where
  base : LayeredBase
  runs : List LocalRun

namespace LocalLayers

/-- The files of the stack, oldest first. -/
def paths (layers : LocalLayers) : List LocalPath :=
  layers.runs.map LocalRun.path

@[simp]
theorem length_paths (layers : LocalLayers) : layers.paths.length = layers.runs.length :=
  List.length_map _

/-- Value for the compatibility field of the same name. -/
def baseSequence (layers : LocalLayers) : Nat :=
  (layers.runs.head?.map LocalRun.maxSequence).getD 0

/-- Whether every run in this stack is in the catalog. -/
def fullyCommitted (layers : LocalLayers) : Bool :=
  layers.runs.all fun run => run.remote.isSome

/-- How the catalog should describe this stack, with `newestRemote` naming a run
that has been uploaded but not yet committed. -/
def runMetas (layers : LocalLayers) (newestRemote : ObjectPath) : Option (List RunMeta) := do
  let newest ← layers.runs.getLast?
  let older ← layers.runs.dropLast.mapM LocalRun.committedMeta?
  return older ++ [newest.toMeta (newest.remote.getD newestRemote)]

/-- Record that the newest run is now in the catalog at `remote`. -/
def markCommitted (layers : LocalLayers) (remote : ObjectPath) : LocalLayers :=
  { layers with
    runs := match layers.runs.getLast? with
      | none => layers.runs
      | some newest => layers.runs.dropLast ++ [{ newest with remote := some remote }] }

end LocalLayers

/-- The format a commit carrying `runs` declares. -/
def runSetFormat (runs : List RunMeta) : Nat :=
  if runs.isEmpty then 0 else formatRunSets

/-- The format a snapshot declares, given its runs and its stream position. -/
def snapshotFormat (runs : List RunMeta) (position : StreamPosition) : Nat :=
  match runSetFormat runs with
  | 0 => 0
  | base => if position.asScalar.isNone then max base formatStreamPosition else base

/-- A merge running in the background: the runs it reads, by name, and the stack
of their layers; once it has finished, the file it wrote. -/
structure PendingMerge where
  finished : Option (Except TickError PuffinBase)
  inputs : List LocalPath
  stack : LayeredBase
  level : Nat
  minSequence : Nat
  maxSequence : Nat
  path : LocalPath

/-- Where the runs named by `inputs` sit in `runs`, as a contiguous window. -/
def locateRunWindow (runs : List LocalRun) (inputs : List LocalPath) : Option RunRange :=
  if inputs.isEmpty ∨ runs.length < inputs.length then
    none
  else
    ((List.range (runs.length - inputs.length + 1)).find? fun start =>
      decide (((runs.drop start).take inputs.length).map LocalRun.path = inputs)).map
        fun start => ⟨start, start + inputs.length⟩

/-- Let the newest run also describe `sequence`. -/
def extendNewest (runs : List RunMeta) (sequence : Nat) : Option (List RunMeta) :=
  runs.getLast?.map fun newest => runs.dropLast ++ [{ newest with maxSequence := sequence }]

/-- The committed run set with `range` replaced by `merged`. -/
def spliceRunSet (inputs : List LocalRun) (range : RunRange) (merged : RunMeta)
    (sequence : Nat) : Option (List RunMeta) := do
  let below ← (inputs.take range.start).mapM LocalRun.committedMeta?
  let above ← (inputs.drop range.stop).mapM LocalRun.committedMeta?
  extendNewest (below ++ merged :: above) sequence

/-- Level for a run merged from `inputs`; levels saturate at a byte. -/
def mergedLevel (inputs : List LocalRun) : Nat :=
  match inputs.map LocalRun.level with
  | [] => 0
  | level :: levels => min (levels.foldl max level + 1) 255

/-- What a fold produced, which decides how the commit describes it. -/
inductive Layer where
  | base
  | delta (baseSequence : Nat)
  deriving DecidableEq, Repr

/-- What a fold leaves behind: the forest, the stack, and the file to commit if
one was written. -/
structure Folded where
  forest : ScopedForest LayeredBase
  layers : Option LocalLayers
  file : Except TickError (Option (PuffinBase × Layer))

/-- Write the stream to a file and map it, unless the disk fails. -/
def writeAtomically (diskOk : Bool) (calls : List SinkCall) : Except TickError PuffinBase :=
  if diskOk then .ok (writeBase calls) else .error .disk

/-- Rewrite the whole state into one self-contained run. -/
def foldBase (forest : ScopedForest LayeredBase) (layers : Option LocalLayers)
    (sequence : Nat) (diskOk : Bool) : Folded :=
  let inputs := (layers.map LocalLayers.runs).getD []
  let built := forest.compactAndFold fun calls =>
    (writeAtomically diskOk calls).map fun file => (LayeredBase.new file, file)
  match built.2 with
  | .error error => ⟨built.1, layers, .error error⟩
  | .ok file =>
      -- subsumes everything below it, so it inherits the whole span
      let first := (inputs.head?.map LocalRun.minSequence).getD sequence
      let run := LocalRun.written (.folded sequence true) (mergedLevel inputs) first sequence
      ⟨built.1, some ⟨LayeredBase.new file, [run]⟩, .ok (some (file, .base))⟩

/-- Append the memtable's own pairs as a new layer. -/
def foldDelta (forest : ScopedForest LayeredBase) (current : LocalLayers)
    (sequence : Nat) (diskOk : Bool) : Folded :=
  let built := forest.foldDelta fun calls _ =>
    (writeAtomically diskOk calls).map fun file => (current.base.pushed file, file)
  match built.2 with
  | .error error => ⟨built.1, some current, .error error⟩
  | .ok file =>
      let run := LocalRun.written (.folded sequence false) 0 sequence sequence
      let next : LocalLayers := ⟨current.base.pushed file, current.runs ++ [run]⟩
      ⟨built.1, some next, .ok (some (file, .delta next.baseSequence))⟩

/-- Drain the memtable into a new local layer.  A leader forces the fold because
it commits the layer; otherwise the size of the memtable decides. -/
def fold (config : FlusherConfig) (forest : ScopedForest LayeredBase)
    (layers : Option LocalLayers) (sequence : Nat) (force diskOk : Bool) : Folded :=
  if !config.diskMode then
    ⟨forest, layers, .ok none⟩
  else if !force && forest.memtableLinks < config.followerFoldAfterLinks then
    ⟨forest, layers, .ok none⟩
  else
    match layers with
    | none => foldBase forest none sequence diskOk
    | some current =>
        if current.fullyCommitted then
          foldDelta forest current sequence diskOk
        else
          foldBase forest (some current) sequence diskOk

/-! ## What a fold can do -/

/-- A fold that wrote a file: the whole state as one run, or the memtable over a
stack that is in the catalog. -/
inductive FoldWrites (forest : ScopedForest LayeredBase) (sequence : Nat) :
    Option LocalLayers → ScopedForest LayeredBase → LocalLayers → PuffinBase → Layer → Prop
  | rebuilt {layers : Option LocalLayers} {file : PuffinBase} {level first : Nat}
      (unsettled : ∀ current ∈ layers, current.fullyCommitted = false)
      (streamed : file = writeBase forest.tier.compactLocked.2)
      (inherits : first =
        (((layers.map LocalLayers.runs).getD []).head?.map LocalRun.minSequence).getD sequence)
      (raised : level = mergedLevel ((layers.map LocalLayers.runs).getD [])) :
      FoldWrites forest sequence layers (forest.adopt (LayeredBase.new file))
        ⟨LayeredBase.new file, [LocalRun.written (.folded sequence true) level first sequence]⟩
        file .base
  | layered {current : LocalLayers} {file : PuffinBase} {baseSequence : Nat}
      (committed : current.fullyCommitted = true)
      (streamed : file = writeBase forest.tier.streamMemtable.2) :
      FoldWrites forest sequence (some current) (forest.adopt (current.base.pushed file))
        ⟨current.base.pushed file,
          current.runs ++ [LocalRun.written (.folded sequence false) 0 sequence sequence]⟩
        file (.delta baseSequence)

/-- What a fold leaves: everything as it was, compressed paths after a failure,
or a new file. -/
inductive FoldEffect (config : FlusherConfig) (forest : ScopedForest LayeredBase)
    (layers : Option LocalLayers) (sequence : Nat) (force diskOk : Bool) : Folded → Prop
  | kept (unneeded : config.diskMode = false ∨ force = false) :
      FoldEffect config forest layers sequence force diskOk ⟨forest, layers, .ok none⟩
  | fails {tier : Tier LayeredBase} (disk : config.diskMode = true) (broken : diskOk = false)
      (attempt : tier = forest.tier.compactLocked.1 ∨ tier = forest.tier.streamMemtable.1) :
      FoldEffect config forest layers sequence force diskOk
        ⟨forest.setTier tier, layers, .error .disk⟩
  | writes {forest' : ScopedForest LayeredBase} {next : LocalLayers} {file : PuffinBase}
      {layer : Layer} (disk : config.diskMode = true) (works : diskOk = true)
      (written : FoldWrites forest sequence layers forest' next file layer) :
      FoldEffect config forest layers sequence force diskOk
        ⟨forest', some next, .ok (some (file, layer))⟩

theorem foldBase_effect {config : FlusherConfig} (forest : ScopedForest LayeredBase)
    (layers : Option LocalLayers) (sequence : Nat) (force diskOk : Bool)
    (disk : config.diskMode = true)
    (unsettled : ∀ current ∈ layers, current.fullyCommitted = false) :
    FoldEffect config forest layers sequence force diskOk
      (foldBase forest layers sequence diskOk) := by
  cases diskOk with
  | false => exact .fails disk rfl (Or.inl rfl)
  | true => exact .writes disk rfl (.rebuilt unsettled rfl rfl rfl)

theorem foldDelta_effect {config : FlusherConfig} (forest : ScopedForest LayeredBase)
    (current : LocalLayers) (sequence : Nat) (force diskOk : Bool)
    (disk : config.diskMode = true) (committed : current.fullyCommitted = true) :
    FoldEffect config forest (some current) sequence force diskOk
      (foldDelta forest current sequence diskOk) := by
  cases diskOk with
  | false => exact .fails disk rfl (Or.inr rfl)
  | true => exact .writes disk rfl (.layered committed rfl)

/-- Every fold has one of these effects. -/
theorem fold_effect (config : FlusherConfig) (forest : ScopedForest LayeredBase)
    (layers : Option LocalLayers) (sequence : Nat) (force diskOk : Bool) :
    FoldEffect config forest layers sequence force diskOk
      (fold config forest layers sequence force diskOk) := by
  unfold fold
  split
  · next ram => exact .kept (Or.inl (by simpa using ram))
  · next disk =>
      have disk : config.diskMode = true := by simpa using disk
      split
      · next small => exact .kept (Or.inr (by simp_all))
      · cases layers with
        | none => exact foldBase_effect forest none sequence force diskOk disk (by simp)
        | some current =>
          dsimp only
          split
          · next committed =>
              exact foldDelta_effect forest current sequence force diskOk disk committed
          · next unsettled =>
              exact foldBase_effect forest (some current) sequence force diskOk disk
                (by simpa using unsettled)

end Blaze
