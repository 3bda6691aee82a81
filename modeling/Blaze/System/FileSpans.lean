import Blaze.Storage.Spans
import Blaze.System.DataFiles

/-!
# The spans of committed data files

Whatever the workers do, the positions of a committed data file are the extents of its
rows.  Its scalar span is right as long as a file with rows of partition zero alone
follows a snapshot that covers no other partition: its low end is that of the file, its
high end that of the table.
-/

namespace Blaze

open SnapshotCatalog Script

variable {log : Log} {input : TickInput} {store store' : ObjectStore} {w : Worker}

/-- A snapshot without a position has the watermark of partition zero instead. -/
theorem SnapshotMeta.proper_streamPosition {snapshot : SnapshotMeta}
    (proper : snapshot.position.Proper) : snapshot.streamPosition.Proper := by
  unfold streamPosition
  split
  · exact StreamPosition.proper_new.advance fun other => absurd rfl other
  · exact proper

/-! ## What a worker knows about its segments -/

/-- A sealed segment has rows, and its positions are their extents. -/
structure Segment.Sealed (segment : Segment) : Prop where
  extents : segment.Extents
  nonempty : segment.rows ≠ []

/-- The observed position covers none of the segments whole. -/
structure Observed.Beyond (seen : Observed) (segments : List Segment) : Prop where
  proper : seen.prevPosition.Proper
  beyond : ∀ segment ∈ segments, ∃ p, seen.prevPosition.get p < segment.last.get p

/-- What a tick is about to write was put together from uncovered segments. -/
def TickState.Spanned (segments : List Segment) : TickState → Prop
  | .putMerge seen _ _ => seen.Beyond segments
  | .commitMerge seen _ _ snapshot =>
      seen.Beyond segments ∧ snapshot.streamPosition.Proper
  | .awaitMerge seen => seen.Beyond segments
  | .putData seen batch => batch.Filled seen
  | .putPuffin seen batch _ _ _ => batch.Filled seen
  | .commitData seen batch snapshot => batch.Filled seen ∧ snapshot.streamPosition.Proper
  | _ => True

structure Worker.Spanned (w : Worker) : Prop where
  active : w.buffer.active.Extents
  sealed : ∀ segment ∈ w.buffer.sealed, segment.Sealed
  tick : w.tick.Spanned w.buffer.sealed

def Process.Spanned : Process → Prop
  | .running w => w.Spanned
  | _ => True

/-- The snapshots name data files with the positions of their rows, and with the right
scalar span under a condition on the snapshot before. -/
structure ObjectStore.Spanned (store : ObjectStore) : Prop where
  proper : ∀ (k : Nat) (snapshot : SnapshotMeta), store.snapshots[k]? = some snapshot →
    snapshot.streamPosition.Proper
  files : ∀ (k : Nat) (snapshot : SnapshotMeta) (file : DataFileMeta),
    store.snapshots[k]? = some snapshot → file ∈ snapshot.dataFiles →
      ∃ rows, store.data[file.path.uuid]? = some rows ∧ file.Spans rows ∧
        (file.ScalarOk rows ↔
          (OnlyZero rows → ∀ p, p ≠ 0 → store.positionAt (k - 1) p = 0))

/-! ## Segments on their way through a worker -/

namespace Segment

/-- Rows put a segment above the position that covers nothing. -/
theorem Sealed.exists_last_ne {segment : Segment} (ok : segment.Sealed) :
    ∃ p, 0 < segment.last.get p := by
  obtain ⟨row, member⟩ := List.exists_mem_of_ne_nil _ ok.nonempty
  obtain ⟨held, inRows, -, offset⟩ := exists_row_of_extreme (ok.extents.last.extreme member)
  refine ⟨row.partition, Nat.pos_of_ne_zero ?_⟩
  rw [← offset]
  exact ok.extents.positive held inRows

end Segment

/-- Dropping covered segments leaves those the position does not cover. -/
theorem EdgeBuffer.mem_dropCommitted {buffer : EdgeBuffer} {committed : StreamPosition}
    {segment : Segment} (member : segment ∈ (buffer.dropCommitted committed).sealed) :
    segment ∈ buffer.sealed ∧ ∃ p, committed.get p < segment.last.get p := by
  obtain ⟨inBuffer, uncovered⟩ := List.mem_filter.mp member
  refine ⟨inBuffer, ?_⟩
  by_contra covered
  push Not at covered
  rw [(committed.dominates_iff segment.last).mpr covered] at uncovered
  cases uncovered

namespace Worker

variable {config : FlusherConfig} {w' : Worker}

theorem spanned_seek {boot : Boot} (ok : store.InOrder) (order : boot.InOrder store) :
    (boot.seek store).Spanned := by
  rcases Boot.seek_spec ok order with ⟨position, -, sought⟩
  rw [sought]
  exact ⟨Segment.extents_empty, by simp [EdgeBuffer.new], trivial⟩

/-- Changes beside the buffer and the tick do not matter. -/
theorem Spanned.frame (spanned : w.Spanned) (buffer : w'.buffer = w.buffer)
    (tick : w'.tick.Spanned w.buffer.sealed) : w'.Spanned where
  active := by
    rw [buffer]
    exact spanned.active
  sealed := by
    rw [buffer]
    exact spanned.sealed
  tick := by
    rw [buffer]
    exact tick

theorem Spanned.finish (spanned : w.Spanned) (result : Except TickError Unit) :
    (w.finish result).Spanned :=
  spanned.frame rfl trivial

/-- The next record of a partition lies above all rows of the active segment. -/
theorem Spanned.append (data : w.DataOk log store) (spanned : w.Spanned) {record : Record}
    (held : w.applying = some record) :
    { w with
      buffer := w.buffer.append record
      position := w.position.advance record.partition record.offset
      applying := none }.Spanned := by
  rcases data with ⟨⟨chunks, recent, buffers⟩, applying, -⟩
  rcases applying record held with ⟨has, isNext⟩
  refine ⟨spanned.active.append (Log.offset_ne_zero has) ?_, spanned.sealed, spanned.tick⟩
  intro row member samePartition
  obtain ⟨other, inRecent, inRows⟩ :=
    List.mem_flatMap.mp (buffers.holds.active.rows.mem_iff.mp member)
  obtain ⟨partition, offset⟩ := Record.of_mem_rows inRows
  have passed := (buffers.passed other (List.mem_append_right _ inRecent)).2
  rw [← partition, samePartition, ← offset] at passed
  exact lt_of_le_of_lt passed isNext.1

theorem Spanned.startTick (spanned : w.Spanned) :
    { w with buffer := w.buffer.sealActive, tick := .readLatest }.Spanned := by
  unfold EdgeBuffer.sealActive
  split
  · exact ⟨spanned.active, spanned.sealed, trivial⟩
  · next nonempty =>
      refine ⟨Segment.extents_empty, fun segment member => ?_, trivial⟩
      rcases List.mem_append.mp member with old | new
      · exact spanned.sealed segment old
      · rw [List.mem_singleton.mp new]
        have sorted := List.perm_insertionSort Row.Precedes w.buffer.active.rows
        refine ⟨spanned.active.of_perm sorted, fun empty => nonempty ?_⟩
        rw [List.isEmpty_iff]
        exact (List.perm_nil.mp (empty ▸ sorted.symm))

theorem Spanned.drop (spanned : w.Spanned) (committed : StreamPosition)
    (result : Except TickError Unit) :
    ({ w with buffer := w.buffer.dropCommitted committed }.finish result).Spanned :=
  ⟨spanned.active, fun segment member =>
    spanned.sealed segment (EdgeBuffer.mem_dropCommitted member).1, trivial⟩

/-- What the newest snapshot leaves in the buffer lies beyond it. -/
theorem Spanned.dropCovered (spanned : w.Spanned) (idle : w.tick = .readLatest)
    {latest : Option SnapshotMeta} (proper : ∀ snapshot ∈ latest, snapshot.streamPosition.Proper) :
    (w.dropCovered latest).Spanned ∧
      (Observed.new latest).Beyond (w.dropCovered latest).buffer.sealed := by
  unfold Worker.dropCovered
  cases latest with
  | none =>
    refine ⟨spanned.frame rfl spanned.tick, StreamPosition.proper_new, fun segment member => ?_⟩
    obtain ⟨p, positive⟩ := (spanned.sealed segment member).exists_last_ne
    refine ⟨p, ?_⟩
    change StreamPosition.new.get p < _
    rw [StreamPosition.get_new]
    exact positive
  | some snapshot =>
    refine ⟨⟨spanned.active, fun segment member => ?_, ?_⟩, proper snapshot rfl,
      fun segment member => (EdgeBuffer.mem_dropCommitted member).2⟩
    · exact spanned.sealed segment (EdgeBuffer.mem_dropCommitted member).1
    · dsimp only
      rw [idle]
      trivial

/-- The next batch is put together from the segments left in the buffer. -/
theorem Spanned.proceeds {seen : Observed} (spanned : w.Spanned)
    (beyond : seen.Beyond w.buffer.sealed) (proceeds : Proceeds w seen w') : w'.Spanned := by
  cases proceeds with
  | refused | nothing => exact spanned.frame rfl trivial
  | batch nonempty =>
    refine spanned.frame rfl ⟨beyond.proper, w.buffer.sealed, nonempty, rfl, ?_⟩
    exact fun segment member =>
      ⟨(spanned.sealed segment member).extents, beyond.beyond segment member⟩
  | await | upload => exact spanned.frame rfl beyond

/-- A step of a tick keeps the segments and the batch in shape. -/
theorem Spanned.tickEffect (ok : store.InOrder) (order : w.InOrder store)
    (proper : store.Spanned) (spanned : w.Spanned)
    (effect : TickEffect config input store w store' w') : w'.Spanned := by
  have tick := spanned.tick
  cases effect with
  | readRefused stands reply found => cases (read_newest ok order.cached found).2
  | follows stands reply found follower =>
    rcases read_newest ok order.cached found with ⟨rfl, ⟨⟩⟩
    have observed : { w with cachedSeq := store.count }.Spanned := spanned.frame rfl tick
    exact (observed.dropCovered stands (proper.proper _)).1.frame rfl trivial
  | leads stands reply found leader proceeds =>
    rcases read_newest ok order.cached found with ⟨rfl, ⟨⟩⟩
    have observed : { w with cachedSeq := store.count }.Spanned := spanned.frame rfl tick
    obtain ⟨dropped, beyond⟩ := observed.dropCovered stands (proper.proper _)
    exact dropped.proceeds beyond proceeds
  | undescribable stands reply proceeds =>
    rw [stands] at tick
    exact spanned.proceeds tick proceeds
  | putMerge stands reply described =>
    rw [stands] at tick
    exact spanned.frame rfl ⟨tick, SnapshotMeta.proper_streamPosition tick.proper⟩
  | commitMergeConflict stands reply taken proceeds =>
    rw [stands] at tick
    exact spanned.proceeds tick.1 proceeds
  | spliceFails => exact spanned.frame rfl trivial
  | commitMerge stands reply works free resolved proceeds =>
    have framed := tick
    rw [stands] at tick
    refine Spanned.proceeds ?_ ?_ proceeds
    · exact spanned.frame rfl framed
    · exact ⟨tick.1.proper, tick.1.beyond⟩
  | awaits stands proceeds =>
    rw [stands] at tick
    exact spanned.proceeds tick proceeds
  | foldFails stands reply folded =>
    obtain ⟨forest, layers, rfl⟩ := foldForCommit_frame folded
    exact spanned.frame rfl trivial
  | @putData seen batch w1 file layer stands reply folded =>
    obtain ⟨forest, layers, rfl⟩ := foldForCommit_frame folded
    rw [stands] at tick
    exact spanned.frame rfl tick
  | putPuffin stands reply checked =>
    rw [stands] at tick
    exact spanned.frame rfl ⟨tick, SnapshotMeta.proper_streamPosition tick.proper⟩
  | commitData stands reply free =>
    exact (spanned.drop _ (.ok ())).frame rfl trivial
  | _ => exact spanned.finish _

end Worker

/-! ## Committing -/

namespace ObjectStore

/-- A commit keeps the spans right if those of its own files are. -/
theorem Spanned.append (ok : store.InOrder) (spanned : store.Spanned) {snapshot : SnapshotMeta}
    (appended : store.Appended snapshot) (proper : snapshot.streamPosition.Proper)
    (added : ∀ file ∈ snapshot.dataFiles, ∃ rows, store.data[file.path.uuid]? = some rows ∧
      file.Spans rows ∧ (file.ScalarOk rows ↔
        (OnlyZero rows → ∀ p, p ≠ 0 → store.positionAt store.count p = 0))) :
    (store.commit snapshot).Spanned := by
  have grows := ObjectStore.grows_commit store snapshot
  have stable : ∀ {k : Nat}, k ≤ store.count → ∀ p,
      (store.commit snapshot).positionAt k p = store.positionAt k p :=
    fun old => positionAt_stable ok grows appended.inOrder old
  -- every stored snapshot is an old one or the new one
  have split : ∀ (k : Nat) (other : SnapshotMeta),
      (store.commit snapshot).snapshots[k]? = some other →
        (k ≤ store.count ∧ store.snapshots[k]? = some other) ∨
          (k = store.count + 1 ∧ other = snapshot) := by
    intro k other stored
    have inside := ((appended.inOrder.dense k).mp (KeyedMap.mem_of_getElem? stored)).2
    rw [appended.count] at inside
    by_cases old : k ≤ store.count
    · rw [snapshot_stable ok grows appended.inOrder old] at stored
      exact Or.inl ⟨old, stored⟩
    · have newest : k = store.count + 1 := by omega
      rw [newest, appended.stored] at stored
      exact Or.inr ⟨newest, (Option.some.inj stored).symm⟩
  constructor
  · intro k other stored
    rcases split k other stored with ⟨-, old⟩ | ⟨-, rfl⟩
    · exact spanned.proper k other old
    · exact proper
  · intro k other file stored listed
    rcases split k other stored with ⟨inside, old⟩ | ⟨rfl, rfl⟩
    · obtain ⟨rows, held, spans, scalar⟩ := spanned.files k other file old listed
      refine ⟨rows, grows.data _ _ held, spans, ?_⟩
      simp only [stable ((Nat.sub_le k 1).trans inside)]
      exact scalar
    · obtain ⟨rows, held, spans, scalar⟩ := added file listed
      refine ⟨rows, grows.data _ _ held, spans, ?_⟩
      simp only [Nat.add_sub_cancel, stable le_rfl]
      exact scalar

/-- Every batch commits a data file with the extents of its rows. -/
theorem Spanned.storeChange (ok : store.InOrder) (order : w.InOrder store)
    (data : w.DataOk log store) (own : w.Spanned) (spanned : store.Spanned)
    (change : StoreChange input w store store') : store'.Spanned := by
  rcases change.grows ok.fresh with ⟨grows, -⟩
  have unchanged : ∀ {s : ObjectStore}, store.Grows s → s.snapshots = store.snapshots →
      s.Spanned := by
    intro s growsTo same
    constructor
    · rw [same]
      exact spanned.proper
    · intro k snapshot file stored listed
      rw [same] at stored
      obtain ⟨rows, held, spans, scalar⟩ := spanned.files k snapshot file stored listed
      refine ⟨rows, growsTo.data _ _ held, spans, ?_⟩
      unfold ObjectStore.positionAt at scalar ⊢
      rw [same]
      exact scalar
  have batched := data.tick
  have ordered := order.tick
  have filled := own.tick
  cases change with
  | same => exact spanned
  | puffin | data => exact unchanged grows rfl
  | @merge seen again publication snapshot stands arrived taken =>
    rw [stands] at batched filled
    rcases Worker.InOrder.merged ok order stands taken with ⟨appended, -⟩
    refine spanned.append ok appended filled.2 fun file listed => ?_
    change snapshot.dataFiles = [] at batched
    rw [batched] at listed
    cases listed
  | @batch seen batch snapshot stands arrived taken =>
    rw [stands] at batched filled ordered
    rcases batched with ⟨-, path, listing, held⟩
    rcases Worker.InOrder.committed ok order stands taken with ⟨appended, atCount, -⟩
    refine spanned.append ok appended filled.2 fun file listed => ?_
    rw [listing, List.mem_singleton] at listed
    subst listed
    refine ⟨batch.rows, held, filled.1.spans path, ?_⟩
    rw [filled.1.scalarOk_iff path, ← atCount]
    simp only [ordered.1.position]

end ObjectStore

/-! ## Runs -/

theorem Process.Spanned.effect {log : Log} {config : FlusherConfig} {store store' : ObjectStore}
    {process process' : Process} {act : Act} (ok : store.InOrder) (order : process.InOrder store)
    (data : process.DataOk log store) (spanned : store.Spanned) (own : process.Spanned)
    (effect : ProcessEffect log config store process act store' process') :
    store'.Spanned ∧ process'.Spanned := by
  cases effect with
  | checks => exact ⟨spanned, Boot.checkStream_rule trivial fun _ _ => trivial⟩
  | seeks checked => exact ⟨spanned, Worker.spanned_seek ok order⟩
  | applies | finishes => exact ⟨spanned, Worker.Spanned.frame own rfl own.tick⟩
  | appends held => exact ⟨spanned, Worker.Spanned.append data own held⟩
  | starts => exact ⟨spanned, Worker.Spanned.startTick own⟩
  | ticks effect =>
    exact ⟨spanned.storeChange ok order data own effect.storeChange,
      Worker.Spanned.tickEffect ok order spanned own effect⟩
  | _ => exact ⟨spanned, trivial⟩

namespace System

variable {config : Nat → FlusherConfig}

/-- All data files committed so far and all segments on the way to one are in
shape. -/
def Spanned (log : Log) (s : System) : Prop :=
  s.DataOk log ∧ Interleaving.Holds ObjectStore.Spanned (fun _ _ process => process.Spanned) s

theorem spanned_init : init.Spanned log := by
  refine ⟨dataOk_init, ⟨?_, ?_⟩, fun _ => trivial⟩
  · intro k snapshot stored
    simp [init, ObjectStore.empty] at stored
  · intro k snapshot file stored
    simp [init, ObjectStore.empty] at stored

theorem spanned_step {s t : System} {action : Action} (spanned : s.Spanned log)
    (stepped : step log config s action = some t) : t.Spanned log := by
  rcases spanned with ⟨data, holds⟩
  refine ⟨dataOk_step data stepped, ?_⟩
  apply Interleaving.Holds.step holds stepped
  · intro store process taken
    exact Process.Spanned.effect data.1.shared (data.1.own _) (data.2.own _) holds.shared
      (holds.own _) (Process.step_effect taken)
  · intro store process taken j other claim
    exact claim

theorem spanned_run {actions : List Action} {s : System}
    (performed : run log config actions = some s) : s.Spanned log :=
  Execution.run_invariant_of_step (Spanned log)
    (fun _ _ _ spanned stepped => spanned_step spanned stepped) spanned_init performed

end System

/-- In every run, every committed data file carries the lowest and the highest offset of
its rows in each partition they have.  Its scalar span is that of its rows, or absent,
exactly when rows of partition zero alone were committed on top of a position that
covers no other partition. -/
theorem committed_files_span_rows {log : Log} {config : Nat → FlusherConfig}
    {actions : List Action} {s : System} (performed : System.run log config actions = some s)
    {k : Nat} {snapshot : SnapshotMeta} (committed : s.store.snapshots[k]? = some snapshot)
    {file : DataFileMeta} (listed : file ∈ snapshot.dataFiles) :
    ∃ rows, s.store.data[file.path.uuid]? = some rows ∧ file.Spans rows ∧
      (file.ScalarOk rows ↔
        (OnlyZero rows → ∀ p, p ≠ 0 → s.store.positionAt (k - 1) p = 0)) :=
  (System.spanned_run performed).2.shared.files k snapshot file committed listed

/-- The second commit of a worker that reads one partition. -/
theorem committed_files_span_rows_of_line :
    ∃ s snapshot, System.run (line 3) (fun _ => worker true)
        (boot 0 ++ ingest 0 0 1 ++ lead 0 4 ++
          ingest 0 0 2 ++ ingest 0 0 3 ++ lead 0 4) = some s ∧
      s.store.snapshots[2]? = some snapshot ∧
        ∃ file ∈ snapshot.dataFiles, file.minOffset = 2 ∧ file.maxOffset = 3 ∧
          ∃ rows, s.store.data[file.path.uuid]? = some rows ∧ file.Spans rows ∧
            (file.ScalarOk rows ↔
              (OnlyZero rows → ∀ p, p ≠ 0 → s.store.positionAt (2 - 1) p = 0)) := by
  refine Execution.exists_with_of_any (fun s => s.store.snapshots[2]?.any fun snapshot =>
    snapshot.dataFiles.any fun file => decide (file.minOffset = 2 ∧ file.maxOffset = 3))
    (by decide) ?_
  intro s performed present
  obtain ⟨snapshot, committed, named⟩ := (Option.any_eq_true _ _).mp present
  obtain ⟨file, listed, scalar⟩ := List.any_eq_true.mp named
  obtain ⟨low, high⟩ := of_decide_eq_true scalar
  exact ⟨snapshot, committed, file, listed, low, high,
    committed_files_span_rows performed committed listed⟩

/-- A worker commits a record of partition one and then, alone, a record of partition
zero.  The second file says that it spans the offsets from one to zero. -/
theorem scalar_span_of_wider_table_is_wrong :
    ∃ s snapshot, System.run (lines 3) (fun _ => worker true)
        (boot 0 ++ ingest 0 1 1 ++ lead 0 4 ++
          ingest 0 0 1 ++ lead 0 4) = some s ∧
      s.store.snapshots[2]? = some snapshot ∧
        ∃ file ∈ snapshot.dataFiles, ∃ rows, s.store.data[file.path.uuid]? = some rows ∧
          rows.map Row.place = [(0, 1)] ∧ file.minOffset = 1 ∧ file.maxOffset = 0 ∧
            ¬ file.ScalarOk rows := by
  refine Execution.exists_with_of_any (fun s => s.store.snapshots[2]?.any fun snapshot =>
    snapshot.dataFiles.any fun file => s.store.data[file.path.uuid]?.any fun rows =>
      decide (rows.map Row.place = [(0, 1)] ∧ file.minOffset = 1 ∧ file.maxOffset = 0))
    (by decide) ?_
  intro s performed present
  obtain ⟨snapshot, committed, named⟩ := (Option.any_eq_true _ _).mp present
  obtain ⟨file, listed, stored⟩ := List.any_eq_true.mp named
  obtain ⟨rows, held, fields⟩ := (Option.any_eq_true _ _).mp stored
  obtain ⟨places, low, high⟩ := of_decide_eq_true fields
  refine ⟨snapshot, committed, file, listed, rows, held, places, low, high, ?_⟩
  rintro (⟨-, -, highest⟩ | ⟨absent, -⟩)
  · have member := highest.1
    rw [places, high] at member
    simp at member
  · rw [low] at absent
    cases absent

end Blaze
