import Blaze.Storage.Content
import Blaze.System.DataFiles
import Blaze.System.RunSets

/-!
# What the committed files hold

A snapshot claims that its files route every record its position covers.  A
worker that commits takes the position from the newest snapshot and its own
batch, but the files from its own forest and stack; so the claim is kept as long
as the forest of whoever commits has seen what the newest snapshot covers, and
the stack under a commit is not older than the snapshot it follows.
-/

namespace Blaze

open List Fallible SnapshotCatalog

variable {file : PuffinBase} {sequence observed : Nat} {snapshot : SnapshotMeta}
  {forest forest' : ScopedForest LayeredBase} {layers : Option LocalLayers} {seen : Observed}
  {batch : Batch} {layer : Layer} {again : Bool} {publication : Publication} {s : System}
  {store store' : ObjectStore} {log : Log} {bound : Set EdgeEvent} {config : FlusherConfig}
  {w w' : Worker} {position : PartitionId → Nat} {paths : List ObjectPath} {process : Process}
  {next : LocalLayers}

/-! ## Records a position covers -/

namespace Log

/-- The records at or below a position. -/
def upto (log : Log) (position : PartitionId → Nat) : Set EdgeEvent :=
  {event | ∃ p o, log.record p o = some event ∧ o ≤ position p}

theorem upto_mono (log : Log) {later : PartitionId → Nat} (below : ∀ p, position p ≤ later p) :
    log.upto position ⊆ log.upto later := by
  rintro event ⟨p, o, stored, covered⟩
  exact ⟨p, o, stored, covered.trans (below p)⟩

/-- The log begins above offset zero. -/
theorem upto_zero (log : Log) (start : ∀ p, position p = 0) : log.upto position = ∅ := by
  apply Set.eq_empty_of_forall_notMem
  rintro event ⟨p, o, stored, covered⟩
  have zero : o = 0 := Nat.le_zero.mp (covered.trans (start p).le)
  rw [zero, log.reserved] at stored
  cases stored

end Log

/-- What the worker has applied from its start position on, if everything below
that counts as applied. -/
def Worker.reached (log : Log) (w : Worker) : Set EdgeEvent :=
  log.upto w.position.get ∪ {event | ∃ record ∈ w.applying, record.event = event}

theorem Worker.upto_subset_reached (log : Log) (w : Worker) :
    log.upto w.position.get ⊆ w.reached log :=
  Set.subset_union_left

/-! ## Objects -/

/-- The objects at the paths are the files. -/
def ObjectStore.Serves (store : ObjectStore) (paths : List ObjectPath)
    (files : List PuffinBase) : Prop :=
  List.Forall₂ (fun path file => store.puffins[path.uuid]? = some file) paths files

/-- The file is what the store holds for the run, if the run is in the store. -/
def LocalRun.StoredAs (store : ObjectStore) (run : LocalRun) (file : PuffinBase) : Prop :=
  ∀ path ∈ run.remote, store.puffins[path.uuid]? = some file

/-- One layer per run, and the store holds the layers of the committed ones. -/
def LocalLayers.Backed (store : ObjectStore) (layers : LocalLayers) : Prop :=
  List.Forall₂ (LocalRun.StoredAs store) layers.runs layers.base.layers

section Objects

variable {runs : List LocalRun} {listed : List RunMeta} {files others : List PuffinBase}

theorem fetchRun_eq_ok_iff {run : RunMeta} :
    fetchRun store run = .ok file ↔ store.puffins[run.path.uuid]? = some file := by
  unfold fetchRun
  cases store.puffins[run.path.uuid]? with
  | none => simp
  | some held => simp

theorem fetchRuns_eq_ok_iff :
    fetchRuns store listed = .ok files ↔ store.Serves (listed.map RunMeta.path) files := by
  unfold fetchRuns ObjectStore.Serves
  rw [mapM_eq_ok_iff, forall₂_map_left_iff]
  simp only [fetchRun_eq_ok_iff]

theorem ObjectStore.Serves.grows (grows : store.Grows store') (serves : store.Serves paths files) :
    store'.Serves paths files :=
  List.Forall₂.imp (fun path file stored => grows.puffins path.uuid file stored) serves

theorem ObjectStore.Serves.unique (serves : store.Serves paths files)
    (serves' : store.Serves paths others) : files = others := by
  induction serves generalizing others with
  | nil => exact (forall₂_nil_left_iff.mp serves').symm
  | cons stored _ ih =>
    cases serves' with
    | cons stored' rest' =>
      rw [stored] at stored'
      cases stored'
      rw [ih rest']

theorem LocalLayers.Backed.grows (grows : store.Grows store') {layers : LocalLayers}
    (backed : layers.Backed store) : layers.Backed store' :=
  List.Forall₂.imp (fun _ file stored path remote =>
    grows.puffins path.uuid file (stored path remote)) backed

theorem LocalLayers.Backed.aligned {layers : LocalLayers} (backed : layers.Backed store) :
    layers.Aligned :=
  (List.Forall₂.length_eq backed).symm

/-- The files of a described stack are those its run set names. -/
theorem Described.serves_iff (described : Described runs listed) :
    store.Serves (listed.map RunMeta.path) files ↔
      List.Forall₂ (LocalRun.StoredAs store) runs files := by
  unfold ObjectStore.Serves
  rw [forall₂_map_left_iff]
  induction described generalizing files with
  | nil => rw [forall₂_nil_left_iff, forall₂_nil_left_iff]
  | @cons run described runs listed same _ ih =>
    have here : ∀ file, store.puffins[described.path.uuid]? = some file ↔
        run.StoredAs store file := by
      intro file
      unfold LocalRun.StoredAs
      rw [(committedMeta?_eq_some_iff.mp same).1]
      simp
    cases files with
    | nil => simp
    | cons file files =>
      rw [forall₂_cons, forall₂_cons, here, ih]

theorem map_path_extendNewest {extended : List RunMeta}
    (made : extendNewest listed sequence = some extended) :
    extended.map RunMeta.path = listed.map RunMeta.path := by
  rcases Option.map_eq_some_iff.mp made with ⟨newest, isLast, rfl⟩
  conv_rhs => rw [← dropLast_append_getLast? newest isLast]
  simp

/-- The files of a run set with a merge spliced in. -/
theorem Described.serves_spliced (described : Described runs listed)
    (backed : List.Forall₂ (LocalRun.StoredAs store) runs files) {range : RunRange}
    {merged : RunMeta} {spliced : List RunMeta}
    (uploaded : store.puffins[merged.path.uuid]? = some file)
    (made : spliceRunSet runs range merged sequence = some spliced) :
    store.Serves (spliced.map RunMeta.path)
      (files.take range.start ++ file :: files.drop range.stop) := by
  rw [spliceRunSet_eq described] at made
  have serves := described.serves_iff.mpr backed
  rw [map_path_extendNewest made, map_append, map_cons, map_take, map_drop]
  exact rel_append (forall₂_take range.start serves)
    (.cons uploaded (forall₂_drop range.stop serves))

/-- The files of a run set with a new run on top. -/
theorem Described.serves_newest {newest : LocalRun} {path : ObjectPath}
    (described : Described runs listed)
    (backed : List.Forall₂ (LocalRun.StoredAs store) (runs ++ [newest]) files)
    (uploaded : store.puffins[path.uuid]? = some file) (isLast : files.getLast? = some file) :
    store.Serves ((listed ++ [newest.toMeta path]).map RunMeta.path) files := by
  rcases getLast?_eq_some_iff.mp isLast with ⟨older, rfl⟩
  have lengths : older.length = runs.length := by
    have both := List.Forall₂.length_eq backed
    simp only [length_append, length_singleton] at both
    omega
  have below := forall₂_take_append _ _ _ backed
  rw [lengths, take_left] at below
  rw [map_append]
  exact rel_append (described.serves_iff.mpr below) (.cons uploaded .nil)

end Objects

/-! ## What each part of the system holds -/

/-- The snapshot's files hold every record its position covers, and nothing
outside `bound`. -/
def SnapshotMeta.Routed (log : Log) (bound : Set EdgeEvent) (store : ObjectStore)
    (snapshot : SnapshotMeta) : Prop :=
  ∃ files events, store.Serves (snapshot.assembled.map RunMeta.path) files ∧
    Routes files events ∧ log.upto snapshot.streamPosition.get ⊆ events ∧ events ⊆ bound

def ObjectStore.Routed (log : Log) (bound : Set EdgeEvent) (store : ObjectStore) : Prop :=
  ∀ (k : Nat) (snapshot : SnapshotMeta), store.snapshots[k]? = some snapshot →
    snapshot.Routed log bound store

/-- The forest holds at least `reached`, nothing outside `bound`, and serves from
the layers of the stack. -/
structure Serving (bound reached : Set EdgeEvent) (store : ObjectStore)
    (forest : ScopedForest LayeredBase) (layers : Option LocalLayers) : Prop where
  state : ∃ events, forest.OnDisk events ∧ reached ⊆ events ∧ events ⊆ bound
  base : forest.tier.base = layers.map LocalLayers.base
  backed : ∀ current ∈ layers, current.Backed store

/-- The files a batch is committed with: those of the stack, or the one file that
was written. -/
def publishedFiles (layers : Option LocalLayers) (file : PuffinBase) : List PuffinBase :=
  (layers.map fun current => current.base.layers).getD [file]

/-- The routing file of a batch: if its sequence is still free, the published files
hold every record the batch's position covers, and the new run fits above the
stack. -/
structure Publishes (log : Log) (bound : Set EdgeEvent) (store : ObjectStore)
    (layers : Option LocalLayers) (seen : Observed) (batch : Batch) (file : PuffinBase) :
    Prop where
  newest : ∀ current ∈ layers, current.base.layers.getLast? = some file
  routes : ∃ events, Routes (publishedFiles layers file) events ∧ events ⊆ bound ∧
    (store.Free seen.sequence → log.upto batch.position.get ⊆ events)
  adjacent : store.Free seen.sequence → ∀ current ∈ layers,
    ∀ below ∈ current.runs.dropLast.getLast?, below.maxSequence + 1 = seen.sequence

/-- What the tick is about to publish, it has the files for. -/
def TickState.Routed (log : Log) (bound : Set EdgeEvent) (store : ObjectStore)
    (position : StreamPosition) (layers : Option LocalLayers) : TickState → Prop
  | .putMerge _ _ publication => publication.Sound
  | .commitMerge _ _ publication snapshot => publication.Sound ∧
      store.puffins[snapshot.puffinPath.uuid]? = some publication.file
  | .putData seen batch =>
      ∀ p, batch.position.get p ≤ max (seen.prevPosition.get p) (position.get p)
  | .putPuffin seen batch _ file _ => Publishes log bound store layers seen batch file
  | .commitData seen batch snapshot => ∃ file,
      store.puffins[snapshot.puffinPath.uuid]? = some file ∧
        Publishes log bound store layers seen batch file
  | _ => True

structure Worker.Routed (log : Log) (bound : Set EdgeEvent) (store : ObjectStore) (w : Worker) :
    Prop where
  serving : Serving bound (w.reached log) store w.forest w.layers
  pending : ∀ merge ∈ w.pendingMerge, merge.Reads w.layers
  tick : w.tick.Routed log bound store w.position w.layers

def Process.Routed (log : Log) (bound : Set EdgeEvent) (store : ObjectStore) : Process → Prop
  | .offline => True
  | .booting boot => Serving bound (log.upto boot.hydratedPosition) store boot.forest boot.layers
  | .running w => w.Routed log bound store

/-! ## Stability -/

section Stable

variable {bound' reached reached' : Set EdgeEvent}

section Grows

variable (grows : store.Grows store') (more : bound ⊆ bound')

include grows more

theorem SnapshotMeta.Routed.mono (routed : snapshot.Routed log bound store) :
    snapshot.Routed log bound' store' := by
  rcases routed with ⟨files, events, serves, routes, covers, within⟩
  exact ⟨files, events, serves.grows grows, routes, covers, within.trans more⟩

theorem Serving.mono (less : reached' ⊆ reached)
    (serving : Serving bound reached store forest layers) :
    Serving bound' reached' store' forest layers := by
  rcases serving with ⟨⟨events, onDisk, covers, within⟩, base, backed⟩
  exact ⟨⟨events, onDisk, less.trans covers, within.trans more⟩, base,
    fun current held => (backed current held).grows grows⟩

theorem Publishes.mono (publishes : Publishes log bound store layers seen batch file) :
    Publishes log bound' store' layers seen batch file := by
  have wasFree : store'.Free seen.sequence → store.Free seen.sequence :=
    fun free taken => free (grows.mem_snapshots taken)
  rcases publishes with ⟨newest, ⟨events, routes, within, covers⟩, adjacent⟩
  exact ⟨newest, ⟨events, routes, within.trans more, fun free => covers (wasFree free)⟩,
    fun free => adjacent (wasFree free)⟩

theorem TickState.Routed.mono {position : StreamPosition} {tick : TickState}
    (routed : tick.Routed log bound store position layers) :
    tick.Routed log bound' store' position layers := by
  cases tick with
  | putMerge => exact routed
  | commitMerge => exact ⟨routed.1, grows.puffins _ _ routed.2⟩
  | putData => exact routed
  | putPuffin => exact Publishes.mono grows more routed
  | commitData =>
    rcases routed with ⟨file, uploaded, publishes⟩
    exact ⟨file, grows.puffins _ _ uploaded, publishes.mono grows more⟩
  | _ => trivial

theorem Worker.Routed.mono {w : Worker} (routed : w.Routed log bound store) :
    w.Routed log bound' store' :=
  ⟨routed.serving.mono grows more le_rfl, routed.pending, routed.tick.mono grows more⟩

theorem Process.Routed.mono (routed : process.Routed log bound store) :
    process.Routed log bound' store' := by
  cases process with
  | offline => trivial
  | booting boot => exact Serving.mono grows more le_rfl routed
  | running w => exact Worker.Routed.mono grows more routed

end Grows

end Stable

/-! ## Keeping up -/

/-- A worker starts from the position of the snapshot it was hydrated from. -/
def StartsHydrated (store : ObjectStore) : Process → Act → Prop
  | .booting boot, .seek =>
      boot.hydratedStreamPosition.dominates (store.streamPositionAt store.count) = true
  | _, _ => True

/-- The step commits only what the worker's own state covers.  When a worker folds
for a batch whose sequence is free, its own position covers the snapshot the batch
will follow, and a stack that it extends ends at that snapshot.  When it commits a
merge at a free sequence, the snapshot its stack was committed as covers what the
merge will claim. -/
def KeepsUp (store : ObjectStore) : Process → Act → Prop
  | .running w, .tick input =>
      match w.tick with
      | .putData seen _ =>
          input.reply = .done → store.Free seen.sequence →
            w.position.dominates seen.prevPosition = true ∧
              ∀ current ∈ w.layers, current.fullyCommitted = true →
                ∀ newest ∈ current.runs.getLast?, newest.maxSequence + 1 = seen.sequence
      | .commitMerge seen _ publication snapshot =>
          input.reply ≠ .failed → store.Free snapshot.sequence →
            ∀ newest ∈ publication.current.runs.getLast?,
              (store.streamPositionAt newest.maxSequence).dominates seen.prevPosition = true
      | _ => True
  | _, _ => True

instance (store : ObjectStore) (process : Process) (act : Act) :
    Decidable (StartsHydrated store process act) := by
  unfold StartsHydrated
  split <;> infer_instance

instance (store : ObjectStore) (process : Process) (act : Act) :
    Decidable (KeepsUp store process act) := by
  unfold KeepsUp
  split
  · split <;> infer_instance
  · infer_instance

/-! ## Folds and decisions -/

section Worker

variable {input : TickInput} {reached : Set EdgeEvent}

/-- A fold leaves files that hold what the forest held. -/
theorem Serving.foldWrites (serving : Serving bound reached store forest layers)
    (written : FoldWrites forest sequence layers forest' next file layer) :
    Serving bound reached store forest' (some next) ∧
      next.base.layers.getLast? = some file ∧
      ∃ events, Routes next.base.layers events ∧ reached ⊆ events ∧ events ⊆ bound := by
  rcases serving with ⟨⟨events, onDisk, covers, within⟩, base, backed⟩
  rcases written.onDisk onDisk base with ⟨onDisk', base', routes, newest⟩
  refine ⟨⟨⟨events, onDisk', covers, within⟩, base', ?_⟩, newest, events, routes, covers, within⟩
  rintro _ ⟨rfl⟩
  have unstored : ∀ {path : LocalPath} {level first last : Nat},
      (LocalRun.written path level first last).StoredAs store file := by
    rintro path level first last remote ⟨⟩
  cases written with
  | rebuilt => exact .cons unstored .nil
  | layered => exact rel_append (backed _ rfl) (.cons unstored .nil)

theorem Serving.attempt (serving : Serving bound reached store forest layers)
    {tier : Tier LayeredBase}
    (attempt : tier = forest.tier.compactLocked.1 ∨ tier = forest.tier.streamMemtable.1) :
    Serving bound reached store (forest.setTier tier) layers := by
  rcases serving with ⟨⟨events, onDisk, covers, within⟩, base, backed⟩
  rcases onDisk.attempt attempt with ⟨onDisk', base'⟩
  exact ⟨⟨events, onDisk', covers, within⟩, base'.trans base, backed⟩

/-- A file folded for the next sequence is not among those a merge was planned
over. -/
theorem PendingMerge.Over.unplanned {inputs : List LocalRun} {pending : PendingMerge}
    (atop : pending.Over observed layers inputs) (compact : Bool) :
    LocalPath.folded (observed + 1) compact ∉ pending.inputs := by
  rw [← atop.paths]
  intro planned
  rcases mem_map.mp planned with ⟨input, member, path⟩
  have bound := atop.known input member
  rw [path] at bound
  exact absurd bound (Nat.not_succ_le_self observed)

/-- A fold at the next sequence does not disturb a merge in flight. -/
theorem LayersOk.reads_foldWrites {pending : Option PendingMerge}
    (layersOk : LayersOk store observed layers pending)
    (backed : ∀ current ∈ layers, current.Backed store)
    (reads : ∀ merge ∈ pending, merge.Reads layers)
    (written : FoldWrites forest (observed + 1) layers forest' next file layer) :
    ∀ merge ∈ pending, merge.Reads (some next) := by
  intro merge held
  rcases layersOk.atop merge held with ⟨inputs, atop⟩
  exact (reads merge held).foldWrites (fun current here => (backed current here).aligned) written
    atop.unplanned

/-- The sealed segments reach no further than the pipeline. -/
theorem Worker.Buffers.fileLast_le {chunks : List (List Record)} {recent : List Record}
    (buffers : w.Buffers log store chunks recent) (p : PartitionId) :
    (Batch.fileLast w.buffer.sealed).get p ≤ w.position.get p := by
  rw [Batch.fileLast_le_iff]
  intro segment member
  by_cases present : segment.last.get p = 0
  · omega
  · rcases exists_record_of_holds buffers.holds.sealed member present with
      ⟨record, inChunks, rfl, offset⟩
    rw [← offset]
    exact (buffers.passed record (mem_append_left _ inChunks)).2

namespace Worker.Routed

theorem finish (routed : w.Routed log bound store) (result : Except TickError Unit) :
    (w.finish result).Routed log bound store :=
  ⟨routed.serving, routed.pending, trivial⟩

/-- Whatever the tick decides about merges, what it is about to publish is what
its files hold. -/
theorem proceeds (serving : Serving bound (w.reached log) store w.forest w.layers)
    (pending : ∀ merge ∈ w.pendingMerge, merge.Reads w.layers) (runs : w'.RunsOk config store)
    (data : w'.DataOk log store) (proceeds : w.Proceeds seen w') : w'.Routed log bound store := by
  have left : ∀ {merge : Option PendingMerge}, w.MergeLeft seen.sequence merge →
      (∀ current ∈ w.layers, current.Named w.cachedSeq) →
      ∀ planned ∈ merge, planned.Reads w.layers := by
    intro merge left named
    cases left with
    | none => exact fun planned held => by cases held
    | kept => exact pending
    | planned plan =>
      rintro _ ⟨rfl⟩
      exact .planned plan (named _ plan.layers).nodup
  have named := runs.layers.named
  cases proceeds with
  | refused layers within unsliced merge | nothing empty merge =>
    exact ⟨serving, left merge named, trivial⟩
  | batch nonempty merge =>
    refine ⟨serving, left merge named, fun p => ?_⟩
    rcases data.buffers with ⟨chunks, recent, buffers⟩
    rw [Batch.get_position_new]
    exact max_le_max le_rfl (buffers.fileLast_le p)
  | await merge => exact ⟨serving, left merge named, trivial⟩
  | @upload merge file current range again ready finished layers located committed =>
    have reads := pending merge ready
    rcases locateRunWindow_spec located with ⟨within, found⟩
    rw [RunRange.map_window] at found
    refine ⟨serving, fun planned held => ?_,
      ⟨reads.merged file finished, reads.found current layers range within found⟩⟩
    cases held

/-- A follower folds what it holds. -/
theorem follow (serving : Serving bound (w.reached log) store w.forest w.layers)
    (layersOk : LayersOk store w.cachedSeq w.layers w.pendingMerge)
    (pending : ∀ merge ∈ w.pendingMerge, merge.Reads w.layers) (diskOk : Bool) :
    (w.follow config (w.cachedSeq + 1) diskOk).Routed log bound store := by
  rcases w.follow_effect config (w.cachedSeq + 1) diskOk with ⟨folded, effect, same⟩
  rw [same]
  cases effect with
  | kept => exact ⟨serving, pending, trivial⟩
  | fails disk broken attempt => exact ⟨serving.attempt attempt, pending, trivial⟩
  | writes disk works written =>
    exact ⟨(serving.foldWrites written).1,
      layersOk.reads_foldWrites serving.backed pending written, trivial⟩

/-- A worker that keeps up folds for a batch what the batch's position claims. -/
theorem foldForCommit (runs : w.RunsOk config store) (routed : w.Routed log bound store)
    (stands : w.tick = .putData seen batch) (next : seen.sequence = w.cachedSeq + 1)
    (keepsUp : store.Free seen.sequence → w.position.dominates seen.prevPosition = true ∧
      ∀ current ∈ w.layers, current.fullyCommitted = true →
        ∀ newest ∈ current.runs.getLast?, newest.maxSequence + 1 = seen.sequence)
    (folded : CommitFold config w seen.sequence input.diskOk w' (.ok (file, layer))) :
    Serving bound (w'.reached log) store w'.forest w'.layers ∧
      (∀ merge ∈ w'.pendingMerge, merge.Reads w'.layers) ∧
      Publishes log bound store w'.layers seen batch file := by
  have serving := routed.serving
  have tick := routed.tick
  rw [stands] at tick
  have covered : store.Free seen.sequence → log.upto batch.position.get ⊆ w.reached log := by
    intro free
    refine subset_trans (log.upto_mono fun p => ?_) (w.upto_subset_reached log)
    have ahead := (StreamPosition.dominates_iff _ _).mp (keepsUp free).1 p
    exact (tick p).trans (max_le ahead le_rfl)
  cases folded with
  | ram ram =>
    have none := runs.mode ram
    have attempted := serving.attempt (Or.inl rfl)
    refine ⟨attempted, routed.pending, ?_, ?_, ?_⟩
    · rw [none]
      rintro current ⟨⟩
    · rcases serving.state with ⟨events, onDisk, covers, within⟩
      rw [none]
      exact ⟨events, onDisk.routes_compact, within, fun free => (covered free).trans covers⟩
    · rw [none]
      rintro free current ⟨⟩
  | @writes forest layers file layer disk works written =>
    have settled := written
    rw [next] at settled
    rcases serving.foldWrites written with ⟨serving', newest, events, routes, covers, within⟩
    refine ⟨serving', runs.layers.reads_foldWrites serving.backed routed.pending settled,
      ?_, ⟨events, routes, within, fun free => (covered free).trans covers⟩, ?_⟩
    · rintro _ ⟨rfl⟩
      exact newest
    · rintro free _ ⟨rfl⟩ below isBelow
      have ends := (keepsUp free).2
      generalize w.layers = held at written ends
      cases written with
      | rebuilt => cases isBelow
      | @layered current _ _ committed streamed =>
        rw [dropLast_concat] at isBelow
        exact ends current rfl committed below isBelow

/-- The files of the run set a merge is about to publish. -/
theorem merge_serves (ok : store.InOrder) (order : w.InOrder store) (assembles : store.Assembles)
    (runs : w.RunsOk config store) (routed : w.Routed log bound store)
    (stands : w.tick = .commitMerge seen again publication snapshot) :
    store.Serves (snapshot.assembled.map RunMeta.path)
      (publication.current.base.layers.take publication.range.start ++
        publication.file :: publication.current.base.layers.drop publication.range.stop) := by
  have listed := (runs.merge_assembles ok order assembles stands).2.1
  have tick := runs.tick
  have content := routed.tick
  have stack := runs.layers.stack
  rw [stands] at tick content
  rw [tick.1.current] at stack
  rcases stack.exists_snapshot tick.1.committed with ⟨k, below, seen, stored, described⟩
  rw [snapshot.assembled_of_ne_nil listed]
  exact described.serves_spliced (routed.serving.backed _ tick.1.current) content.2 tick.2

/-- The run set a batch is about to be committed with, and the files of it. -/
theorem batch_serves (runs : w.RunsOk config store) (routed : w.Routed log bound store)
    (stands : w.tick = .commitData seen batch snapshot)
    (uploaded : store.puffins[snapshot.puffinPath.uuid]? = some file)
    (publishes : Publishes log bound store w.layers seen batch file) :
    store.Serves (snapshot.assembled.map RunMeta.path) (publishedFiles w.layers file) ∧
      ∀ current ∈ w.layers,
        Described (current.markCommitted snapshot.puffinPath).runs snapshot.assembled := by
  have tick := runs.tick
  have stack := runs.layers.stack
  have newestFile := publishes.newest
  have backed := routed.serving.backed
  rw [stands] at tick
  rcases tick with ⟨layer, ready, listedRuns, -, -⟩
  cases held : w.layers with
  | none =>
    rw [held] at listedRuns
    have none : snapshot.runs = [] := listedRuns
    have alone : snapshot.assembled = [⟨snapshot.puffinPath, 0, snapshot.sequence,
      snapshot.sequence⟩] := if_pos none
    rw [alone]
    exact ⟨.cons uploaded .nil, by simp⟩
  | some current =>
    rw [held] at ready listedRuns stack newestFile backed
    cases ready with
    | @disk _ older newest _ split uncommitted reaches named =>
      rcases stack.exists_newest split uncommitted with ⟨listed, atop⟩
      change snapshot.runs = (current.runMetas snapshot.puffinPath).getD [] at listedRuns
      rw [atop.runMetas, Option.getD_some] at listedRuns
      rw [snapshot.assembled_of_ne_nil (by rw [listedRuns]; simp), listedRuns]
      have below := backed current rfl
      unfold LocalLayers.Backed at below
      rw [atop.runs] at below
      constructor
      · exact atop.described.serves_newest below uploaded (newestFile current rfl)
      · rintro _ ⟨rfl⟩
        exact LocalLayers.described_markCommitted atop.runs atop.described _

/-- The worker after its batch has been committed. -/
theorem batchCommitted (runs : w.RunsOk config store) (routed : w.Routed log bound store)
    (stands : w.tick = .commitData seen batch snapshot) :
    (w.batchCommitted batch snapshot).Routed log bound (store.commit snapshot) := by
  have grows := ObjectStore.grows_commit store snapshot
  have content := routed.tick
  rw [stands] at content
  rcases content with ⟨file, uploaded, publishes⟩
  rcases routed.batch_serves runs stands uploaded publishes with ⟨serves, described⟩
  have serving := routed.serving.mono grows le_rfl le_rfl
  unfold Worker.batchCommitted
  cases held : w.layers with
  | none =>
    rw [held] at serving
    refine ⟨serving, ?_, trivial⟩
    have pending := routed.pending
    rw [held] at pending
    exact pending
  | some current =>
    rw [held] at serves described
    have base := serving.base
    have pending := routed.pending
    rw [held] at base pending
    refine ⟨⟨serving.state, base, ?_⟩, ?_, trivial⟩
    · rintro _ ⟨rfl⟩
      exact ((described current rfl).serves_iff.mp serves).imp
        fun run layer stored path remote => grows.puffins _ _ (stored path remote)
    · intro merge inFlight
      exact (pending merge inFlight).markCommitted snapshot.puffinPath

/-- The worker after its merge has been committed and spliced in. -/
theorem serving_spliced (ok : store.InOrder) (order : w.InOrder store) (assembles : store.Assembles)
    (runs : w.RunsOk config store) (routed : w.Routed log bound store) {spliced : LayeredBase}
    (stands : w.tick = .commitMerge seen again publication snapshot)
    (resolved : publication.current.base.spliced publication.range.start
      publication.range.stop publication.file = .ok spliced) :
    Serving bound (w.reached log) (store.commit snapshot) (w.forest.swapBase spliced)
      (some (Worker.splicedLayers spliced snapshot.runs publication)) := by
  have grows := ObjectStore.grows_commit store snapshot
  have serves := routed.merge_serves ok order assembles runs stands
  rcases runs.merge_assembles ok order assembles stands with ⟨-, listed, lengths⟩
  have tick := runs.tick
  have content := routed.tick
  rw [stands] at tick content
  rcases tick.1 with ⟨-, current, -, within, -⟩
  rcases content.1 with ⟨merged, window⟩
  have made := spliced_layers resolved
  rcases routed.serving with ⟨⟨events, onDisk, covers, inside⟩, base, -⟩
  refine ⟨⟨events, ?_, covers, inside⟩, rfl, ?_⟩
  · rw [merged] at made
    refine ScopedForest.onDisk_swapBase onDisk ?_ made
    have proper : publication.range.start ≤ publication.range.stop := by
      unfold RunRange.Within at within
      omega
    rw [base, current, ← window]
    exact RunRange.take_window_drop proper publication.current.base.layers
  · rintro _ ⟨rfl⟩
    rw [snapshot.assembled_of_ne_nil listed, ← made] at serves
    exact ((described_zip lengths).serves_iff.mp serves).imp
      fun run layer stored path remote => grows.puffins _ _ (stored path remote)

/-- A step of a tick that keeps up keeps the worker's files right. -/
theorem tickEffect (ok : store.InOrder) (order : w.InOrder store) (assembles : store.Assembles)
    (runs : w.RunsOk config store) (data : w.DataOk log store) (routed : w.Routed log bound store)
    (keepsUp : KeepsUp store (.running w) (.tick input))
    (effect : Worker.TickEffect config input store w store' w') : w'.Routed log bound store' := by
  rcases effect.storeChange.grows ok.fresh with ⟨grows, -⟩
  have runs' := Worker.RunsOk.tickEffect ok order assembles runs effect
  have data' := Worker.DataOk.tickEffect ok order data effect
  have kept : w.Routed log bound store' := routed.mono grows le_rfl
  have tick := routed.tick
  have tickOrder := order.tick
  cases effect with
  | readRefused => exact ⟨kept.serving, kept.pending, trivial⟩
  | follows stands reply found follower =>
    rcases Worker.read_newest ok order.cached found with ⟨rfl, ⟨⟩⟩
    rw [(Worker.observed_inOrder ok).next]
    exact follow (w := ({ w with cachedSeq := store.count }.dropCovered _)) routed.serving
      (runs.layers.mono grows order.cached) routed.pending input.diskOk
  | leads stands reply found leader decided =>
    exact proceeds (w := ({ w with cachedSeq := _ }.dropCovered _)) routed.serving
      routed.pending runs' data' decided
  | undescribable stands reply decided =>
    exact proceeds kept.serving kept.pending runs' data' decided
  | putMerge stands reply described =>
    rw [stands] at tick
    exact ⟨kept.serving, kept.pending, tick, Std.TreeMap.getElem?_insert_self⟩
  | commitMergeConflict stands reply taken decided =>
    exact proceeds kept.serving kept.pending runs' data' decided
  | spliceFails => exact ⟨kept.serving, kept.pending, trivial⟩
  | commitMerge stands reply works free resolved decided =>
    have serving := routed.serving_spliced ok order assembles runs stands resolved
    have taken := runs.tick
    rw [stands] at taken
    refine proceeds (w := { w with cachedSeq := _, forest := _, layers := _ }) serving ?_ runs'
      data' decided
    dsimp only
    rw [taken.1.taken]
    rintro merge ⟨⟩
  | awaits stands decided => exact proceeds kept.serving kept.pending runs' data' decided
  | foldFails stands reply folded =>
    cases Worker.foldForCommit_effect folded with
    | fails disk broken attempt => exact ⟨kept.serving.attempt attempt, kept.pending, trivial⟩
  | putData stands reply folded =>
    rw [stands] at tickOrder
    simp only [KeepsUp, stands] at keepsUp
    rcases routed.foldForCommit runs stands tickOrder.1.next (keepsUp reply)
      (Worker.foldForCommit_effect folded) with ⟨serving, pending, publishes⟩
    exact ⟨serving.mono grows le_rfl le_rfl, pending, publishes.mono grows le_rfl⟩
  | putPuffin stands reply checked =>
    have content := kept.tick
    rw [stands] at content
    exact ⟨kept.serving, kept.pending, _, Std.TreeMap.getElem?_insert_self, content⟩
  | commitData stands reply free => exact routed.batchCommitted runs stands
  | _ => exact kept.finish _

end Worker.Routed

/-! ## Commits -/

/-- What is committed by a batch lies right above its stack. -/
theorem Worker.Routed.commitsAdjacent (order : w.InOrder store)
    (routed : w.Routed log bound store) (input : TickInput) :
    CommitsAdjacent store (.running w) (.tick input) := by
  have tick := routed.tick
  have tickOrder := order.tick
  cases stands : w.tick with
  | commitData seen batch snapshot =>
    simp only [CommitsAdjacent, stands]
    rw [stands] at tick tickOrder
    rcases tick with ⟨file, uploaded, publishes⟩
    intro arrived free
    rw [tickOrder.2.2.1] at free
    exact publishes.adjacent free
  | _ => simp only [CommitsAdjacent, stands]

/-- A snapshot that holds its records keeps the catalog right. -/
theorem ObjectStore.Routed.append (routed : store.Routed log bound)
    (new : store.Free snapshot.sequence → snapshot.Routed log bound store) :
    (store.commit snapshot).Routed log bound := by
  have grows := ObjectStore.grows_commit store snapshot
  intro k held stored
  rcases ObjectStore.getElem?_commit stored with old | ⟨free, rfl⟩
  · exact (routed k held old).mono grows le_rfl
  · exact (new free).mono grows le_rfl

/-- A merge that keeps up is published with files that hold what its position
claims: those of the snapshot its stack was committed as, in another shape. -/
theorem Worker.Routed.merge_routed (ok : store.InOrder) (order : w.InOrder store)
    (assembles : store.Assembles) (runs : w.RunsOk config store) (catalog : store.Routed log bound)
    (routed : w.Routed log bound store)
    (stands : w.tick = .commitMerge seen again publication snapshot)
    (keepsUp : ∀ newest ∈ publication.current.runs.getLast?,
      (store.streamPositionAt newest.maxSequence).dominates seen.prevPosition = true) :
    snapshot.Routed log bound store := by
  have serves := routed.merge_serves ok order assembles runs stands
  have tick := runs.tick
  have content := routed.tick
  have tickOrder := order.tick
  have stack := runs.layers.stack
  rw [stands] at tick content tickOrder
  rw [tick.1.current] at stack
  rcases stack.exists_snapshot tick.1.committed with ⟨k, below, observed, stored, described⟩
  rcases catalog k below stored with ⟨files, events, served, routes, covers, within⟩
  have same : files = publication.current.base.layers :=
    served.unique (described.serves_iff.mpr (routed.serving.backed _ tick.1.current))
  have proper : publication.range.start ≤ publication.range.stop := by
    have fits := tick.1.within
    unfold RunRange.Within at fits
    omega
  -- the stack ends at the snapshot it was committed as
  rcases (assembles k below stored).last_described described with ⟨newest, isNewest, ends⟩
  rw [ok.named k below stored] at ends
  refine ⟨_, events, serves, ?_, ?_, within⟩
  · rw [content.1.merged]
    apply Routes.splice
    rw [← content.1.window, ← RunRange.take_window_drop proper, ← same]
    exact routes
  · refine subset_trans (log.upto_mono fun p => ?_) covers
    have ahead := (StreamPosition.dominates_iff _ _).mp (keepsUp newest isNewest) p
    rw [ObjectStore.get_streamPositionAt, ends, ObjectStore.positionAt_of_getElem? stored] at ahead
    rw [tickOrder.2.2]
    exact ahead

theorem ObjectStore.Routed.storeChange (ok : store.InOrder) (order : w.InOrder store)
    (assembles : store.Assembles) (runs : w.RunsOk config store) (catalog : store.Routed log bound)
    (routed : w.Routed log bound store) (keepsUp : KeepsUp store (.running w) (.tick input))
    (change : StoreChange input w store store') : store'.Routed log bound := by
  rcases change.grows ok.fresh with ⟨grows, -⟩
  cases change with
  | same => exact catalog
  | puffin | data => exact fun k held stored => (catalog k held stored).mono grows le_rfl
  | merge stands arrived =>
    apply catalog.append
    intro free
    simp only [KeepsUp, stands] at keepsUp
    exact routed.merge_routed ok order assembles runs catalog stands (keepsUp arrived free)
  | batch stands arrived =>
    apply catalog.append
    intro free
    have content := routed.tick
    have tickOrder := order.tick
    rw [stands] at content tickOrder
    rcases content with ⟨file, uploaded, publishes⟩
    rcases publishes.routes with ⟨events, routes, within, covers⟩
    rw [tickOrder.2.2.1] at free
    refine ⟨_, events, (routed.batch_serves runs stands uploaded publishes).1, routes, ?_, within⟩
    refine subset_trans (log.upto_mono fun p => ?_) (covers free)
    rw [tickOrder.2.2.2]

end Worker

/-! ## Starting up and ingest -/

theorem tier_newForest_withBase (config : FlusherConfig) (base : LayeredBase) :
    (newForest config (ScopedForest.withBase base)).tier =
      ⟨some base, Memtable.new config.memberIndex⟩ := by
  unfold newForest
  cases config.memberIndex with
  | true => rfl
  | false => rfl

theorem tier_newForest_new (config : FlusherConfig) :
    (newForest config (ScopedForest.new : ScopedForest LayeredBase)).tier =
      ⟨none, Memtable.new config.memberIndex⟩ := by
  unfold newForest
  cases config.memberIndex with
  | true => rfl
  | false => rfl

/-- A worker that has loaded a snapshot's files holds what they hold. -/
theorem Process.Routed.loaded {boot : Boot} (ok : store.InOrder) (assembles : store.Assembles)
    (catalog : store.Routed log bound) (loaded : Loaded config store boot) :
    (Process.booting boot).Routed log bound store := by
  have newest := loaded.newest ok
  cases loaded with
  | fresh read =>
    have tier := tier_newForest_new config
    refine ⟨⟨∅, ⟨ScopedForest.represents_empty _ tier, ?_⟩, ?_, Set.empty_subset bound⟩, ?_, ?_⟩
    · rw [tier]
      exact stackOk_nil
    · exact (log.upto_zero fun p => rfl).le
    · rw [tier]
      rfl
    · rintro current ⟨⟩
  | @opened cachedSeq latest base layers disk read mapped =>
    have stored : store.snapshots[store.count]? = some latest := newest.2.symm
    rcases openBase_spec (assembles _ latest stored) mapped with ⟨fetched, rfl⟩
    rcases catalog _ latest stored with ⟨files, events, serves, routes, covers, within⟩
    have serves' := fetchRuns_eq_ok_iff.mp fetched
    have same : files = base.layers := serves.unique serves'
    have tier := tier_newForest_withBase config base
    refine ⟨⟨events, ?_, covers, within⟩, ?_, ?_⟩
    · rw [ScopedForest.onDisk_iff_routes tier]
      change Routes base.layers events
      rw [← same]
      exact routes
    · rw [tier]
      rfl
    · rintro _ ⟨rfl⟩
      exact (described_cached _).serves_iff.mp serves'
  | @hydrated cachedSeq latest runs files ram read listed fetched =>
    have stored : store.snapshots[store.count]? = some latest := newest.2.symm
    rw [(assembles _ latest stored).committedRuns] at listed
    cases listed
    rcases catalog _ latest stored with ⟨files', events, serves, routes, covers, within⟩
    have same : files' = files := serves.unique (fetchRuns_eq_ok_iff.mp fetched)
    subst same
    have tier := tier_newForest_new config
    refine ⟨⟨events, onDisk_hydrateAll tier routes, covers, within⟩, ?_, ?_⟩
    · exact (hydrated_hydrateAll (ScopedForest.hydrated_nil tier) routes.stack).base
    · rintro current ⟨⟩

/-- Applying a record adds it to what the forest holds. -/
theorem Worker.Routed.apply (routed : w.Routed log bound store) {event : EdgeEvent}
    (consumed : event ∈ bound) {p : PartitionId} {o : Nat} :
    { w with forest := w.forest.apply event, applying := some ⟨p, o, event⟩ }.Routed log bound
      store := by
  rcases routed with ⟨⟨⟨events, onDisk, covers, within⟩, base, backed⟩, pending, tick⟩
  refine ⟨⟨⟨insert event events, onDisk.apply event, ?_, ?_⟩, ?_, backed⟩, pending, tick⟩
  · rintro other (below | ⟨record, ⟨rfl⟩, rfl⟩)
    · exact Set.mem_insert_of_mem event (covers (Or.inl below))
    · exact Set.mem_insert event events
  · exact Set.insert_subset consumed within
  · rw [ScopedForest.apply_base w.forest onDisk.represents event]
    exact base

/-- Nothing lies between the position and the record that is appended. -/
theorem Worker.Routed.append (applying : w.Applying log) (routed : w.Routed log bound store)
    {record : Record} (held : w.applying = some record) :
    { w with
      buffer := w.buffer.append record
      position := w.position.advance record.partition record.offset
      applying := none }.Routed log bound store := by
  rcases applying record held with ⟨has, isNext⟩
  have advanced := StreamPosition.get_le_get_advance w.position record.partition record.offset
  refine ⟨routed.serving.mono (.refl store) le_rfl ?_, routed.pending, ?_⟩
  · rintro event (⟨p, o, stored, below⟩ | ⟨other, ⟨⟩, -⟩)
    by_cases passed : o ≤ w.position.get p
    · exact Or.inl ⟨p, o, stored, passed⟩
    · have here : p = record.partition := by
        by_contra elsewhere
        rw [StreamPosition.get_advance_of_ne _ _ elsewhere] at below
        exact passed below
      subst here
      rw [StreamPosition.get_advance_self] at below
      have same : o = record.offset := by
        by_contra different
        have absent := isNext.2 o (by omega) (by omega)
        rw [absent] at stored
        cases stored
      subst same
      unfold Log.Has at has
      rw [has] at stored
      exact Or.inr ⟨record, held, Option.some.inj stored⟩
  · have tick := routed.tick
    dsimp only
    cases stands : w.tick with
    | putData seen batch =>
      rw [stands] at tick
      exact fun p => (tick p).trans (max_le_max le_rfl (advanced p))
    | _ =>
      rw [stands] at tick
      exact tick

theorem Worker.Routed.finishMerge (routed : w.Routed log bound store) {pending : PendingMerge}
    (held : w.pendingMerge = some pending) {diskOk : Bool} :
    { w with
      pendingMerge := some { pending with
        finished := some (if diskOk then .ok (compactLayers pending.stack)
          else .error .disk) } }.Routed log bound store := by
  refine ⟨routed.serving, ?_, routed.tick⟩
  rintro merge ⟨rfl⟩
  refine ⟨fun file wrote => ?_, (routed.pending pending held).found⟩
  cases diskOk with
  | true =>
    cases wrote
    rfl
  | false => cases wrote

/-- A step that keeps up keeps every file right. -/
theorem Process.Routed.effect {process' : Process} {act : Act} (ok : store.InOrder)
    (order : process.InOrder store) (assembles : store.Assembles)
    (runs : process.RunsOk config store) (data : process.DataOk log store)
    (catalog : store.Routed log bound) (routed : process.Routed log bound store)
    (starts : StartsHydrated store process act) (keepsUp : KeepsUp store process act)
    (consumed : ∀ p o event, act = .apply p o → log.record p o = some event → event ∈ bound)
    (effect : ProcessEffect log config store process act store' process') :
    store'.Routed log bound ∧ process'.Routed log bound store' := by
  cases effect with
  | bootFails | crashes => exact ⟨catalog, trivial⟩
  | boots loaded =>
    exact ⟨catalog, Process.Routed.loaded ok assembles catalog (loadState_loaded loaded)⟩
  | checks => exact ⟨catalog, Boot.checkStream_rule trivial fun _ _ => routed⟩
  | @seeks boot checked =>
    refine ⟨catalog, ?_⟩
    rcases Boot.seek_spec ok order with ⟨position, start, sought⟩
    rw [sought]
    refine ⟨Serving.mono (.refl store) le_rfl ?_ routed, by rintro merge ⟨⟩, trivial⟩
    rintro event (below | ⟨record, ⟨⟩, -⟩)
    refine log.upto_mono (fun p => ?_) below
    have ahead := (StreamPosition.dominates_iff _ _).mp starts p
    rw [ObjectStore.get_streamPositionAt, Boot.get_hydratedStreamPosition] at ahead
    rw [start]
    exact ahead
  | applies idle isNext stored =>
    exact ⟨catalog, Worker.Routed.apply routed (consumed _ _ _ rfl stored)⟩
  | appends held => exact ⟨catalog, Worker.Routed.append data.applying routed held⟩
  | finishes held => exact ⟨catalog, Worker.Routed.finishMerge routed held⟩
  | starts => exact ⟨catalog, routed.serving, routed.pending, trivial⟩
  | ticks effect =>
    exact ⟨catalog.storeChange ok order assembles runs routed keepsUp effect.storeChange,
      Worker.Routed.tickEffect ok order assembles runs data routed keepsUp effect⟩

/-! ## Whole executions -/

namespace System

variable {config : Nat → FlusherConfig}

/-- A worker that starts does so from the position it was hydrated at. -/
def StartsHydrated (s : System) (action : Action) : Prop :=
  Blaze.StartsHydrated s.store (s.process action.worker) action.act

/-- The worker that acts commits only what its own state covers. -/
def KeepsUp (s : System) (action : Action) : Prop :=
  Blaze.KeepsUp s.store (s.process action.worker) action.act

instance (s : System) (action : Action) : Decidable (s.StartsHydrated action) :=
  inferInstanceAs (Decidable (Blaze.StartsHydrated _ _ _))

instance (s : System) (action : Action) : Decidable (s.KeepsUp action) :=
  inferInstanceAs (Decidable (Blaze.KeepsUp _ _ _))

/-- Every snapshot's files hold its records, and so does every worker's state. -/
def Routed (log : Log) (bound : Set EdgeEvent) (config : Nat → FlusherConfig) (s : System) :
    Prop :=
  s.RunsOk config ∧ s.DataOk log ∧ Interleaving.Holds (fun store => store.Routed log bound)
    (fun _ store process => process.Routed log bound store) s

theorem routed_init : init.Routed log bound config := by
  refine ⟨runsOk_init, dataOk_init, fun k snapshot stored => ?_, fun _ => trivial⟩
  simp [init, ObjectStore.empty] at stored

theorem Routed.mono {bound' : Set EdgeEvent} (more : bound ⊆ bound')
    (routed : s.Routed log bound config) : s.Routed log bound' config := by
  rcases routed with ⟨runs, data, holds⟩
  exact ⟨runs, data, fun k snapshot stored => (holds.shared k snapshot stored).mono (.refl _) more,
    fun i => (holds.own i).mono (.refl _) more⟩

/-- What a worker commits while it keeps up lies right above its stack. -/
theorem Routed.commitsAdjacent (routed : s.Routed log bound config) (action : Action) :
    s.CommitsAdjacent action := by
  rcases routed with ⟨⟨ordered, -⟩, -, holds⟩
  have order := ordered.own action.worker
  have own := holds.own action.worker
  unfold System.CommitsAdjacent
  generalize s.process action.worker = process at order own
  cases process with
  | offline => trivial
  | booting boot => trivial
  | running w =>
    cases action.act with
    | tick input => exact Worker.Routed.commitsAdjacent order own input
    | _ => trivial

theorem routed_step {t : System} {action : Action} (routed : s.Routed log bound config)
    (starts : s.StartsHydrated action) (keepsUp : s.KeepsUp action)
    (consumed : ∀ p o event, action.act = .apply p o → log.record p o = some event →
      event ∈ bound)
    (stepped : step log config s action = some t) : t.Routed log bound config := by
  have adjacent := routed.commitsAdjacent action
  rcases routed with ⟨runs, data, holds⟩
  refine ⟨runsOk_step runs adjacent stepped, dataOk_step data stepped, ?_⟩
  rcases runs with ⟨ordered, runsHold⟩
  apply Interleaving.Holds.step holds stepped
  · intro store process taken
    exact Process.Routed.effect ordered.shared (ordered.own _) runsHold.shared (runsHold.own _)
      (data.2.own _) holds.shared (holds.own _) starts keepsUp consumed
      (Process.step_effect taken)
  · intro store process taken j other claim
    exact claim.mono ((Process.step_effect taken).grows ordered.shared.fresh).1 le_rfl

theorem routed_run {actions : List Action} (performed : run log config actions = some s)
    (starts : Execution.Allowed (step log config) StartsHydrated actions init)
    (keepUp : Execution.Allowed (step log config) KeepsUp actions init) :
    s.Routed log Set.univ config :=
  Execution.run_invariant (Routed log Set.univ config)
    (fun _ _ _ routed both stepped =>
      routed_step routed both.1 both.2 (fun _ _ _ _ _ => Set.mem_univ _) stepped)
    routed_init performed (starts.and keepUp)

end System

end Blaze
