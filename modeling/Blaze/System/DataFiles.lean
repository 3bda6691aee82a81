import Blaze.System.CommitOrder

/-!
# The data files

Every worker holds in its buffer what it has ingested and no committed position
covers.  A batch therefore contains every record between the position it starts
from and the position it commits, so that no record is lost; whether a record is
written twice depends on where the batch's segments begin.
-/

namespace Blaze

open List SnapshotCatalog Script

variable {log : Log} {record other : Record} {segments : List Segment} {chunks : List (List Record)}
  {store store' : ObjectStore} {recent : List Record} {seen : Observed} {p : PartitionId}
  {w : Worker} {process : Process} {snapshot : SnapshotMeta} {s : System}

/-- The record is what the log holds at its place. -/
def Log.Has (log : Log) (record : Record) : Prop :=
  log.record record.partition record.offset = some record.event

theorem Log.offset_ne_zero (has : log.Has record) : record.offset ≠ 0 := by
  intro zero
  unfold Has at has
  rw [zero, log.reserved] at has
  cases has

/-- A place of the log holds one record. -/
theorem Log.has_unique (has : log.Has record) (otherHas : log.Has other)
    (partition : other.partition = record.partition) (offset : other.offset = record.offset) :
    other = record := by
  unfold Has at has otherHas
  rw [partition, offset, has] at otherHas
  cases other
  cases record
  cases partition
  cases offset
  cases otherHas
  rfl

/-- Advancing to the next record of a partition passes no other record. -/
theorem Log.IsNext.unique {position : StreamPosition}
    (isNext : log.IsNext position record.partition record.offset) (has : log.Has record)
    (otherHas : log.Has other) (above : position.get other.partition < other.offset)
    (below : other.offset ≤
      (position.advance record.partition record.offset).get other.partition) : other = record := by
  have here : other.partition = record.partition := by
    by_contra elsewhere
    rw [StreamPosition.get_advance_of_ne _ _ elsewhere] at below
    omega
  rw [here] at above
  rw [here, StreamPosition.get_advance_self] at below
  apply Log.has_unique has otherHas here
  by_contra different
  have missing := isNext.2 other.offset (by omega) above
  unfold Has at otherHas
  rw [here, missing] at otherHas
  cases otherHas

/-! ## The buffer of a worker -/

/-- The buffer holds records of the log the pipeline has passed, and all of those
the last observed snapshot does not cover. -/
structure Worker.Buffers (log : Log) (store : ObjectStore) (w : Worker)
    (chunks : List (List Record)) (recent : List Record) : Prop where
  holds : w.buffer.Holds chunks recent
  passed : ∀ record ∈ chunks.flatten ++ recent,
    log.Has record ∧ record.offset ≤ w.position.get record.partition
  complete : ∀ record, log.Has record → record.offset ≤ w.position.get record.partition →
    record.offset ≤ store.positionAt w.cachedSeq record.partition ∨
      record ∈ chunks.flatten ++ recent

/-- The record between forest and buffer is the next one of its partition. -/
def Worker.Applying (log : Log) (w : Worker) : Prop :=
  ∀ record ∈ w.applying, log.Has record ∧
    log.IsNext w.position record.partition record.offset

namespace Batch

theorem fileLast_le_iff (segments : List Segment) (p : PartitionId) (bound : Nat) :
    (fileLast segments).get p ≤ bound ↔ ∀ segment ∈ segments, segment.last.get p ≤ bound := by
  suffices general : ∀ start : StreamPosition,
      (segments.foldl (fun position segment => position.merge segment.last) start).get p ≤ bound ↔
        start.get p ≤ bound ∧ ∀ segment ∈ segments, segment.last.get p ≤ bound by
    rw [fileLast, general StreamPosition.new, StreamPosition.get_new]
    simp
  induction segments with
  | nil => simp
  | cons segment segments ih =>
    intro start
    rw [foldl_cons, ih, StreamPosition.get_merge, max_le_iff, forall_mem_cons, and_assoc]

/-- Some segment reaches the highest offset. -/
theorem exists_segment (segments : List Segment) (p : PartitionId)
    (present : (fileLast segments).get p ≠ 0) :
    ∃ segment ∈ segments, segment.last.get p = (fileLast segments).get p := by
  by_contra unreached
  push Not at unreached
  have bounds := (fileLast_le_iff segments p _).mp le_rfl
  have short : (fileLast segments).get p ≤ (fileLast segments).get p - 1 := by
    rw [fileLast_le_iff]
    intro segment member
    have bound := bounds segment member
    have other := unreached segment member
    omega
  omega

theorem get_position_new (seen : Observed) (segments : List Segment) (p : PartitionId) :
    (Batch.new seen segments).position.get p =
      max (seen.prevPosition.get p) ((fileLast segments).get p) :=
  StreamPosition.get_merge _ _ p

end Batch

/-- What a batch contains: records of the log in order, none above its position,
all of those above the position it started from, and one at each offset its
position advances to. -/
structure Batch.Contains (log : Log) (seen : Observed) (batch : Batch)
    (records : List Record) : Prop where
  rows : batch.rows.Perm (records.flatMap Record.rows)
  ordered : Ordered records
  logged : ∀ record ∈ records, log.Has record
  covered : ∀ record ∈ records, record.offset ≤ batch.position.get record.partition
  complete : ∀ record, log.Has record → seen.prevPosition.get record.partition < record.offset →
    record.offset ≤ batch.position.get record.partition → record ∈ records
  attained : ∀ p, seen.prevPosition.get p < batch.position.get p →
    ∃ record ∈ records, record.partition = p ∧ record.offset = batch.position.get p

theorem rows_perm_of_holds (holds : List.Forall₂ Segment.Holds segments chunks) :
    (segments.flatMap Segment.rows).Perm (chunks.flatten.flatMap Record.rows) := by
  induction holds with
  | nil => simp
  | cons here rest ih =>
    rw [flatMap_cons, flatten_cons, flatMap_append]
    exact here.rows.append ih

/-- A segment that reaches an offset has a record at or above it. -/
theorem exists_record_of_holds (holds : List.Forall₂ Segment.Holds segments chunks)
    {segment : Segment} (member : segment ∈ segments) (present : segment.last.get p ≠ 0) :
    ∃ record ∈ chunks.flatten, record.partition = p ∧ record.offset = segment.last.get p := by
  induction holds with
  | nil => cases member
  | @cons first records segments chunks here rest ih =>
    rw [flatten_cons]
    rcases mem_cons.mp member with rfl | later
    · rcases here.exists_last present with ⟨record, inChunk, place⟩
      exact ⟨record, mem_append_left _ inChunk, place⟩
    · rcases ih later with ⟨record, inChunks, place⟩
      exact ⟨record, mem_append_right _ inChunks, place⟩

/-- A record of a sealed segment is at most what its segment reaches. -/
theorem le_last_of_holds (holds : List.Forall₂ Segment.Holds segments chunks)
    (member : record ∈ chunks.flatten) :
    ∃ segment ∈ segments, record.offset ≤ segment.last.get record.partition := by
  induction holds with
  | nil => cases member
  | @cons first records segments chunks here rest ih =>
    rw [flatten_cons] at member
    rcases mem_append.mp member with inFirst | later
    · exact ⟨first, mem_cons_self, here.le_last inFirst⟩
    · rcases ih later with ⟨segment, inRest, bound⟩
      exact ⟨segment, mem_cons_of_mem first inRest, bound⟩

/-- The batch of all sealed segments. -/
theorem Worker.Buffers.contains (buffers : w.Buffers log store chunks recent)
    (order : seen.InOrder store w.cachedSeq) :
    (Batch.new seen w.buffer.sealed).Contains log seen chunks.flatten := by
  have sealed := buffers.holds.sealed
  have ordered := pairwise_append.mp buffers.holds.ordered
  refine ⟨rows_perm_of_holds sealed, ordered.1, fun record member =>
    (buffers.passed record (mem_append_left _ member)).1, fun record member => ?_,
    fun record has above below => ?_, fun p advances => ?_⟩
  · rcases le_last_of_holds sealed member with ⟨segment, inBuffer, bound⟩
    rw [Batch.get_position_new]
    exact bound.trans (((Batch.fileLast_le_iff _ _ _).mp le_rfl segment inBuffer).trans
      (le_max_right _ _))
  · -- some sealed record of the partition lies at or above this one
    rw [Batch.get_position_new] at below
    have reached : ∃ segment ∈ w.buffer.sealed,
        record.offset ≤ segment.last.get record.partition := by
      by_contra unreached
      push Not at unreached
      have short : (Batch.fileLast w.buffer.sealed).get record.partition ≤ record.offset - 1 := by
        rw [Batch.fileLast_le_iff]
        intro segment member
        have less := unreached segment member
        omega
      have positive := Log.offset_ne_zero has
      omega
    rcases reached with ⟨segment, inBuffer, bound⟩
    have present : segment.last.get record.partition ≠ 0 := by
      have positive := Log.offset_ne_zero has
      omega
    rcases exists_record_of_holds sealed inBuffer present with ⟨later, inSealed, samePart, atLast⟩
    have passed := (buffers.passed later (mem_append_left _ inSealed)).2
    rw [samePart, atLast] at passed
    rcases buffers.complete record has (bound.trans passed) with below' | buffered
    · rw [← order.position] at below'
      omega
    · rcases mem_append.mp buffered with inChunks | inRecent
      · exact inChunks
      · -- the active chunk comes after every sealed segment
        have before := ordered.2.2 later inSealed record inRecent samePart
        omega
  · rw [Batch.get_position_new] at advances ⊢
    rcases Batch.exists_segment w.buffer.sealed p (by omega) with
      ⟨segment, inBuffer, reaches⟩
    have present : segment.last.get p ≠ 0 := by omega
    rcases exists_record_of_holds sealed inBuffer present with ⟨record, inSealed, place, last⟩
    exact ⟨record, inSealed, place, by omega⟩

/-! ## What each part of the system knows about data files -/

/-- All rows of the record are in one data file of snapshot `k` or an earlier
one. -/
def ObjectStore.HasRows (store : ObjectStore) (k : Nat) (record : Record) : Prop :=
  ∃ (j : Nat) (snapshot : SnapshotMeta) (file : DataFileMeta) (rows : List Row),
    j ≤ k ∧ store.snapshots[j]? = some snapshot ∧ file ∈ snapshot.dataFiles ∧
      store.data[file.path.uuid]? = some rows ∧ ∀ row ∈ record.rows, row ∈ rows

/-- Every record a snapshot's position covers has its rows in the data files. -/
def ObjectStore.Covered (log : Log) (store : ObjectStore) : Prop :=
  ∀ k record, k ≤ store.count → log.Has record →
    record.offset ≤ store.positionAt k record.partition → store.HasRows k record

/-- The batch a tick is about to commit is complete, and its data file is stored
once it has been uploaded. -/
def TickState.Batched (log : Log) (store : ObjectStore) : TickState → Prop
  | .commitMerge _ _ _ snapshot => snapshot.dataFiles = []
  | .putData seen batch => ∃ records, batch.Contains log seen records
  | .putPuffin seen batch dataPath _ _ =>
      (∃ records, batch.Contains log seen records) ∧
        store.data[dataPath.uuid]? = some batch.rows
  | .commitData seen batch snapshot =>
      (∃ records, batch.Contains log seen records) ∧ ∃ path : ObjectPath,
        snapshot.dataFiles = [batch.dataFile path] ∧ store.data[path.uuid]? = some batch.rows
  | _ => True

structure Worker.DataOk (log : Log) (store : ObjectStore) (w : Worker) : Prop where
  buffers : ∃ chunks recent, w.Buffers log store chunks recent
  applying : w.Applying log
  tick : w.tick.Batched log store

def Process.DataOk (log : Log) (store : ObjectStore) : Process → Prop
  | .running w => w.DataOk log store
  | _ => True

theorem ObjectStore.HasRows.grows (grows : store.Grows store') {k k' : Nat} (later : k ≤ k')
    (has : store.HasRows k record) : store'.HasRows k' record := by
  rcases has with ⟨j, snapshot, file, rows, before, stored, listed, held, all⟩
  exact ⟨j, snapshot, file, rows, before.trans later, grows.snapshots j snapshot stored, listed,
    grows.data _ _ held, all⟩

section Stable

variable {log : Log} {store store' : ObjectStore} {w : Worker}

theorem TickState.Batched.stable (grows : store.Grows store') {tick : TickState}
    (batched : tick.Batched log store) : tick.Batched log store' := by
  cases tick with
  | commitMerge => exact batched
  | putData => exact batched
  | putPuffin => exact ⟨batched.1, grows.data _ _ batched.2⟩
  | commitData =>
    rcases batched with ⟨contains, path, listed, held⟩
    exact ⟨contains, path, listed, grows.data _ _ held⟩
  | _ => trivial

/-- The buffer's claim survives as long as the observed snapshot covers no
less. -/
theorem Worker.Buffers.weaken (buffers : w.Buffers log store chunks recent) {w' : Worker}
    (buffer : w'.buffer = w.buffer) (position : w'.position = w.position)
    (observed : ∀ p, store.positionAt w.cachedSeq p ≤ store'.positionAt w'.cachedSeq p) :
    w'.Buffers log store' chunks recent where
  holds := by
    rw [buffer]
    exact buffers.holds
  passed := by
    rw [position]
    exact buffers.passed
  complete record has below := by
    rw [position] at below
    rcases buffers.complete record has below with durable | buffered
    · exact Or.inl (durable.trans (observed _))
    · exact Or.inr buffered

/-- Segments may be dropped once the observed snapshot covers them. -/
theorem Worker.Buffers.drop (buffers : w.Buffers log store chunks recent)
    (committed : StreamPosition) (covers : ∀ p, committed.get p ≤ store.positionAt w.cachedSeq p) :
    ∃ kept,
      { w with buffer := w.buffer.dropCommitted committed }.Buffers log store kept recent := by
  rcases buffers.holds.dropCommitted committed with ⟨kept, holds, sublist, covered⟩
  refine ⟨kept, holds, fun record member => ?_, fun record has below => ?_⟩
  · apply buffers.passed
    exact (sublist.append_right recent).subset member
  · rcases buffers.complete record has below with durable | buffered
    · exact Or.inl durable
    · rcases mem_append.mp buffered with sealed | active
      · rcases covered record sealed with stays | below'
        · exact Or.inr (mem_append_left _ stays)
        · exact Or.inl (below'.trans (covers _))
      · exact Or.inr (mem_append_right _ active)

theorem Worker.DataOk.stable (ok : store.InOrder) (grows : store.Grows store')
    (ok' : store'.InOrder) (order : w.InOrder store) (data : w.DataOk log store) :
    w.DataOk log store' := by
  rcases data with ⟨⟨chunks, recent, buffers⟩, applying, tick⟩
  refine ⟨⟨chunks, recent, buffers.weaken rfl rfl fun p => ?_⟩, applying, tick.stable grows⟩
  exact (positionAt_stable ok grows ok' order.cached p).ge

theorem Process.DataOk.stable (ok : store.InOrder) (grows : store.Grows store')
    (ok' : store'.InOrder) (order : process.InOrder store) (data : process.DataOk log store) :
    process.DataOk log store' := by
  cases process with
  | running w => exact Worker.DataOk.stable ok grows ok' order data
  | offline => trivial
  | booting boot => trivial

end Stable

/-! ## Ingest -/

namespace Worker

variable {log : Log} {store store' : ObjectStore} {w w' : Worker}

/-- A worker that has just sought the log holds nothing and owes nothing. -/
theorem dataOk_seek {boot : Boot} (ok : store.InOrder) (order : boot.InOrder store) :
    (boot.seek store).DataOk log store := by
  rcases Boot.seek_spec ok order with ⟨position, start, sought⟩
  rw [sought]
  refine ⟨⟨[], [], EdgeBuffer.holds_new, by simp, fun record has below => Or.inl ?_⟩,
    by simp [Applying], trivial⟩
  rw [← start]
  exact below

theorem DataOk.apply (data : w.DataOk log store) {o : Nat} {event : EdgeEvent}
    (isNext : log.IsNext w.position p o) (stored : log.record p o = some event) :
    { w with forest := w.forest.apply event, applying := some ⟨p, o, event⟩ }.DataOk log
      store := by
  rcases data with ⟨⟨chunks, recent, buffers⟩, -, tick⟩
  refine ⟨⟨chunks, recent, buffers.weaken rfl rfl fun _ => le_rfl⟩, ?_, tick⟩
  rintro record ⟨rfl⟩
  exact ⟨stored, isNext⟩

/-- Appending the next record keeps the buffer complete: there is no record
between it and the position. -/
theorem DataOk.append (data : w.DataOk log store) {record : Record}
    (held : w.applying = some record) :
    { w with
      buffer := w.buffer.append record
      position := w.position.advance record.partition record.offset
      applying := none }.DataOk log store := by
  rcases data with ⟨⟨chunks, recent, buffers⟩, applying, tick⟩
  rcases applying record held with ⟨has, isNext⟩
  have advanced : ∀ p, w.position.get p ≤
      (w.position.advance record.partition record.offset).get p :=
    StreamPosition.get_le_get_advance _ _ _
  refine ⟨⟨chunks, recent ++ [record], ?_, fun other member => ?_, fun other otherHas below => ?_⟩,
    by simp [Applying], tick⟩
  · apply buffers.holds.append (Log.offset_ne_zero has)
    intro other member samePartition
    have passed := (buffers.passed other member).2
    rw [samePartition] at passed
    exact lt_of_le_of_lt passed isNext.1
  · rw [← append_assoc] at member
    rcases mem_append.mp member with old | new
    · have passed := buffers.passed other old
      exact ⟨passed.1, passed.2.trans (advanced _)⟩
    · rw [mem_singleton.mp new]
      refine ⟨has, ?_⟩
      change _ ≤ (w.position.advance record.partition record.offset).get _
      rw [StreamPosition.get_advance_self]
      exact le_max_right _ _
  · change other.offset ≤
      (w.position.advance record.partition record.offset).get other.partition at below
    rw [← append_assoc]
    by_cases already : other.offset ≤ w.position.get other.partition
    · rcases buffers.complete other otherHas already with durable | buffered
      · exact Or.inl durable
      · exact Or.inr (mem_append_left _ buffered)
    · right
      rw [isNext.unique has otherHas (by omega) below]
      simp

theorem DataOk.startTick (data : w.DataOk log store) :
    { w with buffer := w.buffer.sealActive, tick := .readLatest }.DataOk log store := by
  rcases data with ⟨⟨chunks, recent, buffers⟩, applying, -⟩
  rcases buffers.holds.sealActive with ⟨chunks', flat, holds⟩
  refine ⟨⟨chunks', [], holds, ?_, ?_⟩, applying, trivial⟩
  · rw [flat, append_nil]
    exact buffers.passed
  · rw [flat, append_nil]
    exact buffers.complete

end Worker

/-! ## Ticks -/

namespace Worker

variable {log : Log} {config : FlusherConfig} {input : TickInput} {store store' : ObjectStore}
  {w w' : Worker}

theorem DataOk.finish (data : w.DataOk log store) (result : Except TickError Unit) :
    (w.finish result).DataOk log store := by
  rcases data with ⟨⟨chunks, recent, buffers⟩, applying, -⟩
  exact ⟨⟨chunks, recent, buffers.weaken rfl rfl fun _ => le_rfl⟩, applying, trivial⟩

/-- Changes to the forest, the stack and the merge in flight do not matter. -/
theorem DataOk.frame (data : w.DataOk log store) (forest : ScopedForest LayeredBase)
    (layers : Option LocalLayers) : { w with forest, layers }.DataOk log store := by
  rcases data with ⟨⟨chunks, recent, buffers⟩, applying, tick⟩
  exact ⟨⟨chunks, recent, buffers.weaken rfl rfl fun _ => le_rfl⟩, applying, tick⟩

/-- Observing a later snapshot does not hurt. -/
theorem DataOk.advance (data : w.DataOk log store) (ok : store.InOrder) {cachedSeq : Nat}
    (later : w.cachedSeq ≤ cachedSeq) (committed : cachedSeq ≤ store.count) :
    { w with cachedSeq }.DataOk log store := by
  rcases data with ⟨⟨chunks, recent, buffers⟩, applying, tick⟩
  exact ⟨⟨chunks, recent, buffers.weaken rfl rfl fun p => ok.positionAt_mono later committed p⟩,
    applying, tick⟩

/-- The next batch is complete. -/
theorem DataOk.proceeds (data : w.DataOk log store) (order : seen.InOrder store w.cachedSeq)
    (proceeds : Proceeds w seen w') : w'.DataOk log store := by
  rcases data with ⟨⟨chunks, recent, buffers⟩, applying, -⟩
  have kept : ∀ {w'' : Worker}, w''.buffer = w.buffer → w''.position = w.position →
      w''.cachedSeq = w.cachedSeq → ∃ chunks recent, w''.Buffers log store chunks recent := by
    intro w'' buffer position cached
    exact ⟨chunks, recent, buffers.weaken buffer position fun p => by rw [cached]⟩
  cases proceeds with
  | batch => exact ⟨kept rfl rfl rfl, applying, chunks.flatten, buffers.contains order⟩
  | _ => exact ⟨kept rfl rfl rfl, applying, trivial⟩

/-- Dropping what the observed snapshot covers. -/
theorem DataOk.drop (data : w.DataOk log store) (committed : StreamPosition)
    (covers : ∀ p, committed.get p ≤ store.positionAt w.cachedSeq p) :
    { w with buffer := w.buffer.dropCommitted committed }.DataOk log store := by
  rcases data with ⟨⟨chunks, recent, buffers⟩, applying, tick⟩
  rcases buffers.drop committed covers with ⟨kept, holds⟩
  exact ⟨⟨kept, recent, holds⟩, applying, tick⟩

/-- Observing the newest snapshot and dropping what it covers. -/
theorem DataOk.dropCovered (ok : store.InOrder) (cached : w.cachedSeq ≤ store.count)
    (data : w.DataOk log store) :
    ({ w with cachedSeq := store.count }.dropCovered store.snapshots[store.count]?).DataOk log
      store := by
  have observed := data.advance ok cached le_rfl
  unfold Worker.dropCovered
  cases newest : store.snapshots[store.count]? with
  | none => exact observed
  | some snapshot =>
    exact observed.drop snapshot.streamPosition fun p =>
      (ObjectStore.positionAt_of_getElem? newest p).ge

/-- After its own commit a worker may drop what the new snapshot covers. -/
theorem DataOk.batchCommitted (ok : store.InOrder) (order : w.InOrder store) {batch : Batch}
    (data : w.DataOk log (store.commit snapshot))
    (stands : w.tick = .commitData seen batch snapshot)
    (free : snapshot.sequence ∉ store.snapshots) :
    (w.batchCommitted batch snapshot).DataOk log (store.commit snapshot) := by
  have tick := order.tick
  rw [stands] at tick
  rcases InOrder.committed ok order stands free with ⟨appended, -, counted⟩
  have observed := data.advance appended.inOrder (le_max_left _ _) counted.le
  have dropped := observed.drop batch.position fun p => by
    change _ ≤ (store.commit snapshot).positionAt (max w.cachedSeq snapshot.sequence) p
    rw [counted, appended.count, ObjectStore.positionAt_of_getElem? appended.stored, tick.2.2.2]
  exact (dropped.frame w.forest _).finish _

/-- A step of a tick keeps the buffer and the batch complete. -/
theorem DataOk.tickEffect (ok : store.InOrder) (order : w.InOrder store)
    (data : w.DataOk log store) (effect : TickEffect config input store w store' w') :
    w'.DataOk log store' := by
  have ok' := InOrder.storeChange ok order effect.storeChange
  rcases effect.storeChange.grows ok.fresh with ⟨grows, -⟩
  have kept := data.stable ok grows ok' order
  have tickOrder := order.tick.stable ok grows ok' order.cached
  cases effect with
  | readRefused stands reply found => cases (read_newest ok order.cached found).2
  | follows stands reply found follower =>
    rcases read_newest ok order.cached found with ⟨rfl, ⟨⟩⟩
    exact ((DataOk.dropCovered ok order.cached data).frame _ _).finish _
  | leads stands reply found leader proceeds =>
    rcases read_newest ok order.cached found with ⟨rfl, ⟨⟩⟩
    exact (DataOk.dropCovered ok order.cached data).proceeds (observed_inOrder ok) proceeds
  | undescribable stands reply proceeds =>
    rw [stands] at tickOrder
    exact kept.proceeds tickOrder proceeds
  | putMerge stands reply described =>
    rcases kept with ⟨⟨chunks, recent, buffers⟩, applying, -⟩
    exact ⟨⟨chunks, recent, buffers.weaken rfl rfl fun _ => le_rfl⟩, applying, rfl⟩
  | commitMergeConflict stands reply taken proceeds =>
    rw [stands] at tickOrder
    exact kept.proceeds tickOrder.1 proceeds
  | spliceFails stands reply free cause =>
    rcases InOrder.merged ok order stands free with ⟨-, counted, -⟩
    exact (kept.advance ok' (le_max_left _ _) counted.le).finish _
  | commitMerge stands reply works free resolved proceeds =>
    rcases InOrder.merged ok order stands free with ⟨-, counted, above⟩
    exact ((kept.advance ok' (le_max_left _ _) counted.le).frame _ _).proceeds above proceeds
  | awaits stands proceeds =>
    rw [stands] at tickOrder
    exact kept.proceeds tickOrder proceeds
  | foldFails stands reply folded =>
    obtain ⟨forest, layers, rfl⟩ := foldForCommit_frame folded
    exact (kept.frame forest layers).finish _
  | @putData seen batch w1 file layer stands reply folded =>
    obtain ⟨forest, layers, rfl⟩ := foldForCommit_frame folded
    rcases kept.frame forest layers with ⟨⟨chunks, recent, buffers⟩, applying, tick⟩
    change w.tick.Batched log _ at tick
    rw [stands] at tick
    exact ⟨⟨chunks, recent, buffers.weaken rfl rfl fun _ => le_rfl⟩, applying, tick,
      Std.TreeMap.getElem?_insert_self⟩
  | @putPuffin seen batch dataPath file layer stands reply checked =>
    rcases kept with ⟨⟨chunks, recent, buffers⟩, applying, tick⟩
    rw [stands] at tick
    exact ⟨⟨chunks, recent, buffers.weaken rfl rfl fun _ => le_rfl⟩, applying, tick.1, dataPath,
      rfl, tick.2⟩
  | commitData stands reply free => exact DataOk.batchCommitted ok order kept stands free
  | _ => exact kept.finish _

end Worker

/-! ## No record is lost -/

section Covered

variable {log : Log} {input : TickInput} {store store' : ObjectStore} {w : Worker}

/-- A commit keeps everything covered if the records the new snapshot adds are in
its own data file. -/
theorem ObjectStore.Covered.append (ok : store.InOrder) (covered : store.Covered log)
    (appended : store.Appended snapshot) (added : ∀ record, log.Has record →
      record.offset ≤ snapshot.streamPosition.get record.partition →
      store.positionAt store.count record.partition < record.offset →
      ∃ file ∈ snapshot.dataFiles, ∃ rows, store.data[file.path.uuid]? = some rows ∧
        ∀ row ∈ record.rows, row ∈ rows) : (store.commit snapshot).Covered log := by
  have grows := ObjectStore.grows_commit store snapshot
  intro k record committed has below
  rw [appended.count] at committed
  by_cases old : k ≤ store.count
  · rw [positionAt_stable ok grows appended.inOrder old] at below
    exact (covered k record old has below).grows grows le_rfl
  · have newest : k = store.count + 1 := by omega
    subst newest
    rw [ObjectStore.positionAt_of_getElem? appended.stored] at below
    by_cases durable : record.offset ≤ store.positionAt store.count record.partition
    · exact (covered store.count record le_rfl has durable).grows grows (Nat.le_succ _)
    · rcases added record has below (by omega) with ⟨file, listed, rows, held, all⟩
      exact ⟨store.count + 1, snapshot, file, rows, le_rfl, appended.stored, listed,
        grows.data _ _ held, all⟩

/-- Every record between the positions of two snapshots is in the batch that took
the catalog from one to the other. -/
theorem ObjectStore.Covered.storeChange (ok : store.InOrder) (order : w.InOrder store)
    (data : w.DataOk log store) (covered : store.Covered log)
    (change : StoreChange input w store store') : store'.Covered log := by
  rcases change.grows ok.fresh with ⟨grows, -⟩
  have unchanged : ∀ {s : ObjectStore}, store.Grows s → s.snapshots = store.snapshots →
      s.Covered log := by
    intro s growsTo same k record committed has below
    unfold ObjectStore.count at committed
    unfold ObjectStore.positionAt at below
    rw [same] at committed below
    exact (covered k record committed has below).grows growsTo le_rfl
  cases change with
  | same => exact covered
  | puffin | data => exact unchanged grows rfl
  | @merge seen again publication snapshot stands arrived taken =>
    have tick := order.tick
    rw [stands] at tick
    rcases Worker.InOrder.commit_next ok order.cached tick.1 tick.2.1
      (fun p => (tick.2.2 p).ge) taken with ⟨atCount, appended⟩
    refine covered.append ok appended fun record _ below above => ?_
    rw [tick.2.2, tick.1.position, atCount] at below
    omega
  | @batch seen batch snapshot stands arrived taken =>
    have tick := order.tick
    have batched := data.tick
    rw [stands] at tick batched
    rcases batched with ⟨⟨records, contains⟩, path, listed, held⟩
    rcases Worker.InOrder.committed ok order stands taken with ⟨appended, atCount, -⟩
    refine covered.append ok appended fun record has below above => ?_
    refine ⟨batch.dataFile path, by rw [listed]; simp, batch.rows, held, fun row member => ?_⟩
    rw [tick.2.2.2] at below
    rw [← atCount, ← tick.1.position] at above
    have inBatch := contains.complete record has above below
    exact contains.rows.mem_iff.mpr (mem_flatMap.mpr ⟨record, inBatch, member⟩)

end Covered

/-- A step of a process keeps all that is known about data files. -/
theorem Process.DataOk.effect {config : FlusherConfig} {process' : Process} {act : Act}
    (ok : store.InOrder) (order : process.InOrder store) (covered : store.Covered log)
    (data : process.DataOk log store)
    (effect : ProcessEffect log config store process act store' process') :
    store'.Covered log ∧ process'.DataOk log store' := by
  cases effect with
  | checks => exact ⟨covered, Boot.checkStream_rule trivial fun _ _ => trivial⟩
  | seeks checked => exact ⟨covered, Worker.dataOk_seek ok order⟩
  | applies idle isNext stored => exact ⟨covered, Worker.DataOk.apply data isNext stored⟩
  | appends held => exact ⟨covered, Worker.DataOk.append data held⟩
  | finishes =>
    rcases data with ⟨⟨chunks, recent, buffers⟩, applying, tick⟩
    exact ⟨covered, ⟨chunks, recent, buffers.weaken rfl rfl fun _ => le_rfl⟩, applying, tick⟩
  | starts => exact ⟨covered, Worker.DataOk.startTick data⟩
  | ticks effect =>
    exact ⟨covered.storeChange ok order data effect.storeChange,
      Worker.DataOk.tickEffect ok order data effect⟩
  | _ => exact ⟨covered, trivial⟩

namespace System

variable {log : Log} {config : Nat → FlusherConfig}

/-- Everything committed positions cover is in the data files, and every worker
holds what is not. -/
def DataOk (log : Log) (s : System) : Prop :=
  s.InOrder ∧ Interleaving.Holds (fun store => store.Covered log)
    (fun _ store process => process.DataOk log store) s

theorem dataOk_init : init.DataOk log := by
  refine ⟨inOrder_init, fun k record committed has below => ?_, fun _ => trivial⟩
  rw [ObjectStore.positionAt_of_not_mem (by simp [init, ObjectStore.empty])] at below
  exact absurd (Nat.le_zero.mp below) (Log.offset_ne_zero has)

theorem dataOk_step {t : System} {action : Action} (data : s.DataOk log)
    (stepped : step log config s action = some t) : t.DataOk log := by
  rcases data with ⟨ordered, holds⟩
  refine ⟨inOrder_step ordered stepped, ?_⟩
  apply Interleaving.Holds.step holds stepped
  · intro store process taken
    exact Process.DataOk.effect ordered.shared (ordered.own _) holds.shared (holds.own _)
      (Process.step_effect taken)
  · intro store process taken j other claim
    have effect := Process.step_effect taken
    exact claim.stable ordered.shared (effect.grows ordered.shared.fresh).1
      (Process.InOrder.effect ordered.shared (ordered.own _) effect).1 (ordered.own j)

theorem dataOk_run {actions : List Action} (performed : run log config actions = some s) :
    s.DataOk log :=
  Execution.run_invariant_of_step (DataOk log)
    (fun _ _ _ data stepped => dataOk_step data stepped) dataOk_init performed

end System

/-- For every snapshot ever committed and every record its position covers, all
rows of the record are in a data file of that snapshot or an earlier one. -/
theorem covered_records_have_rows {log : Log} {config : Nat → FlusherConfig}
    {actions : List Action} {s : System} (performed : System.run log config actions = some s)
    {k : Nat} {snapshot : SnapshotMeta} (committed : s.store.snapshots[k]? = some snapshot)
    {p : PartitionId} {o : Nat} {event : EdgeEvent} (logged : log.record p o = some event)
    (covered : o ≤ snapshot.streamPosition.get p) :
    ∃ (j : Nat) (earlier : SnapshotMeta) (file : DataFileMeta) (rows : List Row), j ≤ k ∧
      s.store.snapshots[j]? = some earlier ∧ file ∈ earlier.dataFiles ∧
        s.store.data[file.path.uuid]? = some rows ∧
          ∀ row ∈ (⟨p, o, event⟩ : Record).rows, row ∈ rows := by
  rcases System.dataOk_run performed with ⟨ordered, holds⟩
  have inside : k ≤ s.store.count :=
    ((ordered.shared.dense k).mp (KeyedMap.mem_of_getElem? committed)).2
  apply holds.shared k ⟨p, o, event⟩ inside logged
  rw [ObjectStore.positionAt_of_getElem? committed]
  exact covered

/-- The second of two workers commits what it held while the first one led. -/
theorem covered_records_have_rows_after_handoff :
    ∃ s snapshot, System.run (lines 3) (fun _ => worker true)
        (boot 0 ++ boot 1 ++ ingest 0 0 1 ++ lead 0 4 ++
          ingest 1 0 1 ++ ingest 1 0 2 ++ lead 1 4) = some s ∧
      s.store.snapshots[2]? = some snapshot ∧ snapshot.streamPosition.get 0 = 2 ∧
      ∃ (j : Nat) (earlier : SnapshotMeta) (file : DataFileMeta) (rows : List Row), j ≤ 2 ∧
        s.store.snapshots[j]? = some earlier ∧ file ∈ earlier.dataFiles ∧
          s.store.data[file.path.uuid]? = some rows ∧
            ∀ row ∈ (⟨0, 2, ⟨2, 3, .global, 0, none⟩⟩ : Record).rows, row ∈ rows := by
  refine Execution.exists_with_of_any (fun s => s.store.snapshots[2]?.any fun snapshot =>
    decide (snapshot.streamPosition.get 0 = 2)) (by decide) ?_
  intro s performed present
  rcases (Option.any_eq_true _ _).mp present with ⟨snapshot, committed, position⟩
  have covered : snapshot.streamPosition.get 0 = 2 := by simpa using position
  exact ⟨snapshot, committed, covered,
    covered_records_have_rows performed committed (p := 0) (o := 2) rfl covered.ge⟩

/-! ## Nothing but the log is committed -/

section FromLog

variable {log : Log} {input : TickInput} {store store' : ObjectStore} {w : Worker}

/-- Every row in the data files of a snapshot is one of a record its position covers. -/
def SnapshotMeta.FromLog (log : Log) (store : ObjectStore) (snapshot : SnapshotMeta) : Prop :=
  ∀ file ∈ snapshot.dataFiles, ∃ rows, store.data[file.path.uuid]? = some rows ∧
    ∀ row ∈ rows, ∃ record, log.Has record ∧
      record.offset ≤ snapshot.streamPosition.get record.partition ∧ row ∈ record.rows

def ObjectStore.FromLog (log : Log) (store : ObjectStore) : Prop :=
  ∀ (k : Nat) (snapshot : SnapshotMeta), store.snapshots[k]? = some snapshot →
    snapshot.FromLog log store

theorem ObjectStore.FromLog.storeChange (fresh : store.Fresh) (order : w.InOrder store)
    (data : w.DataOk log store) (fromLog : store.FromLog log)
    (change : StoreChange input w store store') : store'.FromLog log := by
  have kept : ∀ {k : Nat} {held : SnapshotMeta}, store.snapshots[k]? = some held →
      held.FromLog log store' := by
    intro k held old file listed
    obtain ⟨rows, inStore, all⟩ := fromLog k held old file listed
    exact ⟨rows, (change.grows fresh).1.data _ _ inStore, all⟩
  intro k held stored
  have tick := order.tick
  have batched := data.tick
  cases change with
  | same | puffin | data => exact kept stored
  | merge stands =>
    rw [stands] at batched
    rcases getElem?_commit stored with old | ⟨-, rfl⟩
    · exact kept old
    · simp [SnapshotMeta.FromLog, show held.dataFiles = [] from batched]
  | @batch seen batch snapshot stands =>
    rw [stands] at tick batched
    rcases getElem?_commit stored with old | ⟨-, rfl⟩
    · exact kept old
    · obtain ⟨⟨records, contains⟩, path, listing, inStore⟩ := batched
      intro file listed
      rw [listing, mem_singleton] at listed
      subst listed
      refine ⟨batch.rows, inStore, fun row member => ?_⟩
      obtain ⟨record, inBatch, inRows⟩ :=
        mem_flatMap.mp (contains.rows.mem_iff.mp member)
      refine ⟨record, contains.logged record inBatch, ?_, inRows⟩
      rw [tick.2.2.2]
      exact contains.covered record inBatch

theorem System.fromLog_run {config : Nat → FlusherConfig} {actions : List Action} {s : System}
    (performed : run log config actions = some s) : s.DataOk log ∧ s.store.FromLog log := by
  refine Execution.run_invariant_of_step (fun s : System => s.DataOk log ∧ s.store.FromLog log)
    ?_ ⟨dataOk_init, by simp [init, ObjectStore.empty, ObjectStore.FromLog]⟩ performed
  rintro s action t ⟨data, fromLog⟩ stepped
  refine ⟨dataOk_step data stepped, ?_⟩
  obtain ⟨store, process, effect, rfl⟩ := step_effect stepped
  have order := data.1.own action.worker
  have own := data.2.own action.worker
  generalize s.process action.worker = before at effect order own
  generalize action.act = act at effect
  cases effect with
  | ticks effect =>
    exact ObjectStore.FromLog.storeChange data.1.shared.fresh order own fromLog effect.storeChange
  | _ => exact fromLog

end FromLog

/-- In every run, the data files of a snapshot and those before it hold exactly the rows of
the records its position covers. -/
theorem committed_rows_iff {log : Log} {config : Nat → FlusherConfig} {actions : List Action}
    {s : System} (performed : System.run log config actions = some s) {k : Nat}
    {snapshot : SnapshotMeta} (committed : s.store.snapshots[k]? = some snapshot) (row : Row) :
    (∃ (j : Nat) (earlier : SnapshotMeta) (file : DataFileMeta) (rows : List Row), j ≤ k ∧
      s.store.snapshots[j]? = some earlier ∧ file ∈ earlier.dataFiles ∧
        s.store.data[file.path.uuid]? = some rows ∧ row ∈ rows) ↔
      ∃ record : Record, log.record record.partition record.offset = some record.event ∧
        record.offset ≤ snapshot.streamPosition.get record.partition ∧ row ∈ record.rows := by
  obtain ⟨⟨ordered, holds⟩, fromLog⟩ := System.fromLog_run performed
  have inside : k ≤ s.store.count :=
    ((ordered.shared.dense k).mp (KeyedMap.mem_of_getElem? committed)).2
  constructor
  · rintro ⟨j, earlier, file, rows, before, stored, listed, held, member⟩
    obtain ⟨rows', held', all⟩ := fromLog j earlier stored file listed
    obtain rfl : rows' = rows := Option.some.inj (held'.symm.trans held)
    obtain ⟨record, has, covered, inRows⟩ := all row member
    have later := ordered.shared.positionAt_mono before inside record.partition
    rw [ObjectStore.positionAt_of_getElem? stored,
      ObjectStore.positionAt_of_getElem? committed] at later
    exact ⟨record, has, covered.trans later, inRows⟩
  · rintro ⟨record, has, covered, member⟩
    rw [← ObjectStore.positionAt_of_getElem? committed] at covered
    obtain ⟨j, earlier, file, rows, before, stored, listed, held, all⟩ :=
      holds.shared k record inside has covered
    exact ⟨j, earlier, file, rows, before, stored, listed, held, all row member⟩

/-- The second of two workers commits a record that the first one has not. -/
theorem committed_rows_iff_after_handoff :
    ∃ s snapshot, System.run (lines 3) (fun _ => worker true)
        (boot 0 ++ boot 1 ++ ingest 0 0 1 ++ lead 0 4 ++
          ingest 1 0 1 ++ ingest 1 0 2 ++ lead 1 4) = some s ∧
      s.store.snapshots[2]? = some snapshot ∧
        ∀ row ∈ (⟨0, 2, ⟨2, 3, .global, 0, none⟩⟩ : Record).rows,
          ∃ (j : Nat) (earlier : SnapshotMeta) (file : DataFileMeta) (rows : List Row), j ≤ 2 ∧
            s.store.snapshots[j]? = some earlier ∧ file ∈ earlier.dataFiles ∧
              s.store.data[file.path.uuid]? = some rows ∧ row ∈ rows := by
  refine Execution.exists_with_of_any (fun s => s.store.snapshots[2]?.any fun snapshot =>
    decide (2 ≤ snapshot.streamPosition.get 0)) (by decide) ?_
  intro s performed present
  obtain ⟨snapshot, committed, covered⟩ := (Option.any_eq_true _ _).mp present
  exact ⟨snapshot, committed, fun row member => (committed_rows_iff performed committed row).mpr
    ⟨_, rfl, of_decide_eq_true covered, member⟩⟩

end Blaze
