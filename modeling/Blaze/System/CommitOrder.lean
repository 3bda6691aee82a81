import Blaze.System.Steps

/-!
# The order of commits

Whatever the workers do, the committed sequences are dense, no snapshot is ever
rewritten, and the stream position of each snapshot covers the one before it.
What carries this is that a tick knows the position of the snapshot right below
the sequence it commits at.
-/

namespace Blaze

open Execution SnapshotCatalog

variable {store store' : ObjectStore} {k cachedSeq : Nat} {snapshot : SnapshotMeta}
  {seen : Observed} {config : FlusherConfig} {boot : Boot} {log : Log} {s t : System}
  {action : Action} {actions : List Action}

namespace ObjectStore

/-- The highest committed sequence. -/
def count (store : ObjectStore) : Nat :=
  scanLatestSeq store.snapshots

/-- How far snapshot `k` covers a partition; zero before the first snapshot. -/
def positionAt (store : ObjectStore) (k : Nat) (p : PartitionId) : Nat :=
  (store.snapshots[k]?.map fun snapshot => snapshot.streamPosition.get p).getD 0

/-- The stream position of snapshot `k`; empty before the first snapshot. -/
def streamPositionAt (store : ObjectStore) (k : Nat) : StreamPosition :=
  (store.snapshots[k]?.map SnapshotMeta.streamPosition).getD StreamPosition.new

theorem get_streamPositionAt (store : ObjectStore) (k : Nat) (p : PartitionId) :
    (store.streamPositionAt k).get p = store.positionAt k p := by
  unfold streamPositionAt positionAt
  cases store.snapshots[k]? with
  | none => exact StreamPosition.get_new p
  | some snapshot => rfl

theorem positionAt_of_getElem? (stored : store.snapshots[k]? = some snapshot) (p : PartitionId) :
    store.positionAt k p = snapshot.streamPosition.get p := by
  simp [positionAt, stored]

theorem positionAt_of_not_mem (free : k ∉ store.snapshots) (p : PartitionId) :
    store.positionAt k p = 0 := by
  simp [positionAt, Std.TreeMap.getElem?_eq_none free]

theorem Grows.positionAt (grows : store.Grows store') (committed : k ∈ store.snapshots)
    (p : PartitionId) : store'.positionAt k p = store.positionAt k p := by
  have stored := Std.TreeMap.getElem?_eq_some_getElem committed
  rw [positionAt_of_getElem? stored, positionAt_of_getElem? (grows.snapshots k _ stored)]

/-- Dense sequences, each under its own number, with positions that only
advance. -/
structure InOrder (store : ObjectStore) : Prop where
  fresh : store.Fresh
  dense : Dense store.snapshots store.count
  named : ∀ (k : Nat) (snapshot : SnapshotMeta), store.snapshots[k]? = some snapshot →
    snapshot.sequence = k
  advancing : ∀ k p, k + 1 ≤ store.count → store.positionAt k p ≤ store.positionAt (k + 1) p

theorem inOrder_empty : empty.InOrder where
  fresh := fresh_empty
  dense k := by
    have none : count empty = 0 := by decide
    rw [none]
    simp [empty]
    omega
  named := by simp [empty]
  advancing k p below := by
    have none : count empty = 0 := by decide
    omega

theorem count_of_dense {n : Nat} (dense : Dense store.snapshots n) : store.count = n :=
  scanLatestSeq_of_dense dense

/-- Positions advance from any snapshot to any later one. -/
theorem InOrder.positionAt_mono (ok : store.InOrder) {n : Nat} (before : k ≤ n)
    (committed : n ≤ store.count) (p : PartitionId) :
    store.positionAt k p ≤ store.positionAt n p := by
  induction n, before using Nat.le_induction with
  | base => exact le_rfl
  | succ n _ ih =>
    exact (ih (by omega)).trans (ok.advancing n p committed)

theorem InOrder.count_le (ok : store.InOrder) (grows : store.Grows store') (ok' : store'.InOrder) :
    store.count ≤ store'.count := by
  by_cases none : store.count = 0
  · omega
  · have newest := (ok.dense store.count).mpr ⟨by omega, le_rfl⟩
    exact ((ok'.dense _).mp (grows.mem_snapshots newest)).2

/-- Without a newest snapshot nothing is committed. -/
theorem InOrder.count_eq_zero (ok : store.InOrder) (none : store.snapshots[store.count]? = none) :
    store.count = 0 := by
  by_contra some
  have committed := (ok.dense store.count).mpr ⟨by omega, le_rfl⟩
  rw [Std.TreeMap.getElem?_eq_some_getElem committed] at none
  cases none

/-- Objects that are not snapshots do not matter. -/
theorem InOrder.of_snapshots (ok : store.InOrder) (fresh : store'.Fresh)
    (same : store'.snapshots = store.snapshots) : store'.InOrder := by
  have positions : ∀ k p, store'.positionAt k p = store.positionAt k p := by
    intro k p
    unfold positionAt
    rw [same]
  have counts : store'.count = store.count := by
    unfold count
    rw [same]
  refine ⟨fresh, ?_, ?_, ?_⟩
  · rw [same, counts]
    exact ok.dense
  · rw [same]
    exact ok.named
  · intro k p below
    rw [positions, positions]
    exact ok.advancing k p (by rwa [counts] at below)

/-- The snapshot has become the newest one. -/
structure Appended (store : ObjectStore) (snapshot : SnapshotMeta) : Prop where
  sequence : snapshot.sequence = store.count + 1
  inOrder : (store.commit snapshot).InOrder
  count : (store.commit snapshot).count = store.count + 1
  stored : (store.commit snapshot).snapshots[store.count + 1]? = some snapshot

/-- Committing at the next sequence a position that covers the newest one. -/
theorem InOrder.commit (ok : store.InOrder) (next : snapshot.sequence = store.count + 1)
    (covers : ∀ p, store.positionAt store.count p ≤ snapshot.streamPosition.get p) :
    store.Appended snapshot := by
  have free : snapshot.sequence ∉ store.snapshots := by
    rw [ok.dense, next]
    omega
  have grows := grows_commit store snapshot
  have inserted : (store.commit snapshot).snapshots =
      store.snapshots.insert (store.count + 1) snapshot := by
    unfold ObjectStore.commit
    rw [commit_of_not_mem free, next]
  have dense : Dense (store.commit snapshot).snapshots (store.count + 1) := by
    rw [inserted]
    exact ok.dense.insert snapshot
  have counted := count_of_dense dense
  have newest : (store.commit snapshot).snapshots[store.count + 1]? = some snapshot := by
    rw [inserted, Std.TreeMap.getElem?_insert_self]
  refine ⟨next, ⟨ok.fresh.commit snapshot, ?_, fun k held stored => ?_, fun k p below => ?_⟩,
    counted, newest⟩
  · rw [counted]
    exact dense
  · by_cases new : k = store.count + 1
    · subst new
      rw [newest] at stored
      cases stored
      exact next
    · rw [inserted, Std.TreeMap.getElem?_insert,
        if_neg (by rw [Std.LawfulEqCmp.compare_eq_iff_eq]; exact Ne.symm new)] at stored
      exact ok.named k held stored
  · rw [counted] at below
    have kept : (store.commit snapshot).positionAt k p = store.positionAt k p := by
      by_cases zero : k = 0
      · subst zero
        rw [positionAt_of_not_mem (by rw [dense]; omega),
          positionAt_of_not_mem (by rw [ok.dense]; omega)]
      · exact grows.positionAt ((ok.dense k).mpr ⟨by omega, by omega⟩) p
    rw [kept]
    by_cases last : k = store.count
    · subst last
      rw [positionAt_of_getElem? newest]
      exact covers p
    · rw [grows.positionAt ((ok.dense (k + 1)).mpr ⟨by omega, by omega⟩) p]
      exact ok.advancing k p (by omega)

end ObjectStore

/-! ## What a tick knows about the catalog -/

/-- The tick is about to commit right above the last snapshot its catalog has
observed, and knows that snapshot's position. -/
structure Observed.InOrder (store : ObjectStore) (cachedSeq : Nat) (seen : Observed) : Prop where
  next : seen.sequence = cachedSeq + 1
  position : ∀ p, seen.prevPosition.get p = store.positionAt cachedSeq p

/-- What the tick is about to commit covers what it observed. -/
def TickState.InOrder (store : ObjectStore) (cachedSeq : Nat) : TickState → Prop
  | .idle _ => True
  | .readLatest => True
  | .putMerge seen _ _ => seen.InOrder store cachedSeq
  | .commitMerge seen _ _ snapshot =>
      seen.InOrder store cachedSeq ∧ snapshot.sequence = seen.sequence ∧
        ∀ p, snapshot.streamPosition.get p = seen.prevPosition.get p
  | .awaitMerge seen => seen.InOrder store cachedSeq
  | .putData seen batch =>
      seen.InOrder store cachedSeq ∧ ∀ p, seen.prevPosition.get p ≤ batch.position.get p
  | .putPuffin seen batch _ _ _ =>
      seen.InOrder store cachedSeq ∧ ∀ p, seen.prevPosition.get p ≤ batch.position.get p
  | .commitData seen batch snapshot =>
      seen.InOrder store cachedSeq ∧ (∀ p, seen.prevPosition.get p ≤ batch.position.get p) ∧
        snapshot.sequence = seen.sequence ∧
        ∀ p, snapshot.streamPosition.get p = batch.position.get p

structure Worker.InOrder (store : ObjectStore) (w : Worker) : Prop where
  cached : w.cachedSeq ≤ store.count
  tick : w.tick.InOrder store w.cachedSeq

/-- A booting worker was hydrated from a snapshot its catalog has observed. -/
structure Boot.InOrder (store : ObjectStore) (boot : Boot) : Prop where
  cached : boot.cachedSeq ≤ store.count
  hydrated : ∃ k ≤ boot.cachedSeq, boot.hydrated = store.snapshots[k]?

def Process.InOrder (store : ObjectStore) : Process → Prop
  | .offline => True
  | .booting boot => boot.InOrder store
  | .running w => w.InOrder store

section Stable

variable (ok : store.InOrder) (grows : store.Grows store') (ok' : store'.InOrder)

include ok grows ok'

/-- A snapshot, or its absence before the first one, stays. -/
theorem snapshot_stable (committed : k ≤ store.count) :
    store'.snapshots[k]? = store.snapshots[k]? := by
  by_cases zero : k = 0
  · subst zero
    rw [Std.TreeMap.getElem?_eq_none (by rw [ok'.dense]; omega),
      Std.TreeMap.getElem?_eq_none (by rw [ok.dense]; omega)]
  · have stored := Std.TreeMap.getElem?_eq_some_getElem
      ((ok.dense k).mpr ⟨by omega, committed⟩)
    rw [stored]
    exact grows.snapshots k _ stored

theorem positionAt_stable (committed : k ≤ store.count) (p : PartitionId) :
    store'.positionAt k p = store.positionAt k p := by
  unfold ObjectStore.positionAt
  rw [snapshot_stable ok grows ok' committed]

theorem Observed.InOrder.stable (cached : cachedSeq ≤ store.count)
    (order : seen.InOrder store cachedSeq) : seen.InOrder store' cachedSeq :=
  ⟨order.next, fun p => by rw [order.position, positionAt_stable ok grows ok' cached]⟩

theorem TickState.InOrder.stable (cached : cachedSeq ≤ store.count) {tick : TickState}
    (order : tick.InOrder store cachedSeq) : tick.InOrder store' cachedSeq := by
  have seenStable : ∀ {seen : Observed}, seen.InOrder store cachedSeq →
      seen.InOrder store' cachedSeq := fun seenOrder => seenOrder.stable ok grows ok' cached
  cases tick with
  | idle => trivial
  | readLatest => trivial
  | putMerge => exact seenStable order
  | awaitMerge => exact seenStable order
  | _ => exact ⟨seenStable order.1, order.2⟩

theorem Process.InOrder.stable {process : Process} (order : process.InOrder store) :
    process.InOrder store' := by
  have larger := ok.count_le grows ok'
  cases process with
  | offline => trivial
  | booting boot =>
    rcases order with ⟨cached, k, observed, hydrated⟩
    refine ⟨cached.trans larger, k, observed, ?_⟩
    rw [hydrated, snapshot_stable ok grows ok' (observed.trans cached)]
  | running w => exact ⟨order.cached.trans larger, order.tick.stable ok grows ok' order.cached⟩

end Stable

/-! ## Each step -/

theorem Batch.le_position (seen : Observed) (segments : List Segment) (p : PartitionId) :
    seen.prevPosition.get p ≤ (Batch.new seen segments).position.get p := by
  change _ ≤ (seen.prevPosition.merge (Batch.fileLast segments)).get p
  rw [StreamPosition.get_merge]
  exact le_max_left _ _

/-- The compatibility fallback reads the same position. -/
theorem SnapshotMeta.get_streamPosition
    (exact : snapshot.watermark = snapshot.position.asScalar.getD 0) (p : PartitionId) :
    snapshot.streamPosition.get p = snapshot.position.get p := by
  unfold streamPosition
  split
  · next empty =>
      have scalar : snapshot.position.asScalar = some 0 := by
        have none : snapshot.position.len = 0 := by
          unfold StreamPosition.len
          unfold StreamPosition.isEmpty at empty
          rwa [Std.TreeMap.isEmpty_eq_size_eq_zero, beq_iff_eq] at empty
        simp [StreamPosition.asScalar, none]
      rw [scalar] at exact
      rw [exact, StreamPosition.get_eq_zero_of_isEmpty empty]
      by_cases zero : p = 0
      · subst zero
        exact StreamPosition.get_single_zero 0
      · exact StreamPosition.get_single_of_ne 0 zero
  · rfl

namespace Worker

variable {input : TickInput} {w w' : Worker}

theorem InOrder.proceeds (cached : w.cachedSeq ≤ store.count)
    (order : seen.InOrder store w.cachedSeq) (proceeds : Proceeds w seen w') :
    w'.InOrder store := by
  cases proceeds with
  | refused | nothing => exact ⟨cached, trivial⟩
  | batch => exact ⟨cached, order, Batch.le_position seen w.buffer.sealed⟩
  | await | upload => exact ⟨cached, order⟩

section Ok

variable (ok : store.InOrder)

include ok

/-- The observation made from a dense catalog. -/
theorem observed_inOrder :
    (Observed.new store.snapshots[store.count]?).InOrder store store.count := by
  unfold Observed.new
  cases newest : store.snapshots[store.count]? with
  | none =>
    have none := ok.count_eq_zero newest
    refine ⟨by rw [none]; rfl, fun p => ?_⟩
    simp [Observed.prevPosition, ObjectStore.positionAt, newest]
  | some snapshot =>
    refine ⟨?_, fun p => ?_⟩
    · change snapshot.sequence + 1 = store.count + 1
      rw [ok.named _ _ newest]
    · simp [Observed.prevPosition, ObjectStore.positionAt, newest]

/-- On a dense catalog a tick reads the newest snapshot. -/
theorem read_newest (cached : w.cachedSeq ≤ store.count)
    {found : Except String (Option SnapshotMeta)}
    (read : latest store.snapshots w.cachedSeq = (cachedSeq, found)) :
    cachedSeq = store.count ∧ found = .ok store.snapshots[store.count]? := by
  rw [latest_of_dense ok.dense cached] at read
  cases read
  exact ⟨rfl, rfl⟩

/-- A commit above the observed snapshot, at a sequence that is still free, is at
the next sequence. -/
theorem InOrder.commit_next (cached : w.cachedSeq ≤ store.count)
    (order : seen.InOrder store w.cachedSeq) (sequence : snapshot.sequence = seen.sequence)
    (covers : ∀ p, seen.prevPosition.get p ≤ snapshot.streamPosition.get p)
    (free : snapshot.sequence ∉ store.snapshots) :
    w.cachedSeq = store.count ∧ store.Appended snapshot := by
  have atCount : w.cachedSeq = store.count := by
    rw [ok.dense, sequence, order.next] at free
    omega
  have next : snapshot.sequence = store.count + 1 := by
    rw [sequence, order.next, atCount]
  refine ⟨atCount, ok.commit next fun p => ?_⟩
  rw [← atCount, ← order.position]
  exact covers p

/-- After its merge is committed the tick goes on right above it. -/
theorem InOrder.merged (order : w.InOrder store) {again : Bool} {publication : Publication}
    (stands : w.tick = .commitMerge seen again publication snapshot)
    (free : snapshot.sequence ∉ store.snapshots) :
    store.Appended snapshot ∧
      max w.cachedSeq snapshot.sequence = (store.commit snapshot).count ∧
      seen.next.InOrder (store.commit snapshot) (max w.cachedSeq snapshot.sequence) := by
  have tick := order.tick
  rw [stands] at tick
  rcases InOrder.commit_next ok order.cached tick.1 tick.2.1 (fun p => (tick.2.2 p).ge) free with
    ⟨atCount, appended⟩
  have newest : max w.cachedSeq snapshot.sequence = store.count + 1 := by
    rw [appended.sequence]
    omega
  refine ⟨appended, newest.trans appended.count.symm, ?_, fun p => ?_⟩
  · change seen.sequence + 1 = _
    rw [newest, ← tick.2.1, appended.sequence]
  · rw [newest, ObjectStore.positionAt_of_getElem? appended.stored, tick.2.2]
    rfl

/-- After its batch is committed the worker has observed the new snapshot. -/
theorem InOrder.committed (order : w.InOrder store) {batch : Batch}
    (stands : w.tick = .commitData seen batch snapshot)
    (free : snapshot.sequence ∉ store.snapshots) :
    store.Appended snapshot ∧ w.cachedSeq = store.count ∧
      max w.cachedSeq snapshot.sequence = (store.commit snapshot).count := by
  have tick := order.tick
  rw [stands] at tick
  have covers : ∀ p, seen.prevPosition.get p ≤ snapshot.streamPosition.get p := by
    intro p
    rw [tick.2.2.2]
    exact tick.2.1 p
  rcases InOrder.commit_next ok order.cached tick.1 tick.2.2.1 covers free with
    ⟨atCount, appended⟩
  refine ⟨appended, atCount, ?_⟩
  rw [appended.sequence, appended.count]
  omega

theorem InOrder.storeChange (order : w.InOrder store) (change : StoreChange input w store store') :
    store'.InOrder := by
  rcases change.grows ok.fresh with ⟨-, fresh⟩
  cases change with
  | same => exact ok
  | puffin | data => exact ok.of_snapshots fresh rfl
  | merge stands arrived free => exact (InOrder.merged ok order stands free).1.inOrder
  | batch stands arrived free => exact (InOrder.committed ok order stands free).1.inOrder

/-- A step of a tick keeps the worker's view of the catalog right. -/
theorem InOrder.tickEffect (order : w.InOrder store)
    (effect : TickEffect config input store w store' w') : w'.InOrder store' := by
  have ok' := InOrder.storeChange ok order effect.storeChange
  rcases effect.storeChange.grows ok.fresh with ⟨grows, -⟩
  have larger := ok.count_le grows ok'
  have cached : w.cachedSeq ≤ store'.count := order.cached.trans larger
  have tick := order.tick.stable ok grows ok' order.cached
  cases effect with
  | readRefused stands reply found => cases (read_newest ok order.cached found).2
  | follows stands reply found follower =>
    rcases read_newest ok order.cached found with ⟨rfl, -⟩
    exact ⟨le_rfl, trivial⟩
  | leads stands reply found leader proceeds =>
    rcases read_newest ok order.cached found with ⟨rfl, ⟨⟩⟩
    exact InOrder.proceeds (le_refl store.count) (observed_inOrder ok) proceeds
  | undescribable stands reply proceeds =>
    rw [stands] at tick
    exact InOrder.proceeds cached tick proceeds
  | putMerge stands reply described =>
    rw [stands] at tick
    exact ⟨cached, tick, rfl, fun p => SnapshotMeta.get_streamPosition rfl p⟩
  | commitMergeConflict stands reply taken proceeds =>
    rw [stands] at tick
    exact InOrder.proceeds cached tick.1 proceeds
  | spliceFails stands reply free cause =>
    exact ⟨(InOrder.merged ok order stands free).2.1.le, trivial⟩
  | commitMerge stands reply works free resolved proceeds =>
    rcases InOrder.merged ok order stands free with ⟨-, counted, above⟩
    exact InOrder.proceeds counted.le above proceeds
  | awaits stands proceeds =>
    rw [stands] at tick
    exact InOrder.proceeds cached tick proceeds
  | foldFails stands reply folded =>
    obtain ⟨forest, layers, rfl⟩ := foldForCommit_frame folded
    exact ⟨cached, trivial⟩
  | putData stands reply folded =>
    obtain ⟨forest, layers, rfl⟩ := foldForCommit_frame folded
    rw [stands] at tick
    exact ⟨cached, tick⟩
  | putPuffin stands reply checked =>
    rw [stands] at tick
    exact ⟨cached, tick.1, tick.2, rfl, fun p => SnapshotMeta.get_streamPosition rfl p⟩
  | commitData stands reply free => exact ⟨(InOrder.committed ok order stands free).2.2.le, trivial⟩
  | _ => exact ⟨cached, trivial⟩

end Ok

end Worker

/-- A worker is hydrated from the newest snapshot at that moment. -/
theorem Loaded.newest (ok : store.InOrder) (loaded : Loaded config store boot) :
    boot.cachedSeq = store.count ∧ boot.hydrated = store.snapshots[store.count]? := by
  have read := loaded.read
  rw [latest_of_dense ok.dense (Nat.zero_le _)] at read
  simp only [Prod.mk.injEq, Except.ok.injEq] at read
  exact ⟨read.1.symm, read.2.symm⟩

/-- A worker that boots on an empty catalog was hydrated from nothing. -/
theorem Boot.InOrder.hydrated_eq_none (order : boot.InOrder store) (empty : store.count = 0)
    (none : store.snapshots[store.count]? = none) : boot.hydrated = Option.none := by
  rcases order with ⟨cached, k, observed, hydrated⟩
  rw [hydrated, ← none]
  congr 1
  omega

/-- The worker resumes from the newest snapshot's position. -/
theorem Boot.seek_spec (ok : store.InOrder) (order : boot.InOrder store) :
    ∃ position, (∀ p, StreamPosition.get position p = store.positionAt store.count p) ∧
      boot.seek store = .running
        { forest := boot.forest
          buffer := EdgeBuffer.new
          position
          applying := none
          layers := boot.layers
          pendingMerge := none
          cachedSeq := store.count
          tick := .idle (.ok ()) } := by
  unfold seek
  rw [latest_of_dense ok.dense order.cached]
  refine ⟨boot.startPosition store.snapshots[store.count]?, fun p => ?_, rfl⟩
  cases newest : store.snapshots[store.count]? with
  | some snapshot =>
    rw [ObjectStore.positionAt_of_getElem? newest]
    rfl
  | none =>
    -- nothing is committed, so the worker was hydrated from nothing
    have unhydrated := order.hydrated_eq_none (ok.count_eq_zero newest) newest
    unfold startPosition ObjectStore.positionAt
    rw [newest, unhydrated]
    by_cases zero : p = 0
    · subst zero
      exact StreamPosition.get_single_zero 0
    · exact StreamPosition.get_single_of_ne 0 zero

theorem Boot.InOrder.checkStream (ok : store.InOrder) (order : boot.InOrder store) :
    (boot.checkStream config store).InOrder store := by
  refine Boot.checkStream_rule trivial fun cachedSeq source => ?_
  rcases order with ⟨cached, k, observed, hydrated⟩
  rcases source with rfl | rfl
  · exact ⟨cached, k, observed, hydrated⟩
  · rw [latest_of_dense ok.dense cached]
    exact ⟨le_rfl, k, observed.trans cached, hydrated⟩

/-- How far the snapshot covers a partition that the routing state was loaded
from. -/
def Boot.hydratedPosition (boot : Boot) (p : PartitionId) : Nat :=
  (boot.hydrated.map fun snapshot => snapshot.streamPosition.get p).getD 0

/-- The stream position of that snapshot. -/
def Boot.hydratedStreamPosition (boot : Boot) : StreamPosition :=
  (boot.hydrated.map SnapshotMeta.streamPosition).getD StreamPosition.new

theorem Boot.get_hydratedStreamPosition (boot : Boot) (p : PartitionId) :
    boot.hydratedStreamPosition.get p = boot.hydratedPosition p := by
  unfold hydratedStreamPosition hydratedPosition
  cases boot.hydrated with
  | none => exact StreamPosition.get_new p
  | some snapshot => rfl

theorem Boot.InOrder.hydratedPosition_le (ok : store.InOrder) (order : boot.InOrder store)
    (p : PartitionId) : boot.hydratedPosition p ≤ store.positionAt store.count p := by
  rcases order with ⟨cached, k, observed, hydrated⟩
  unfold hydratedPosition
  rw [hydrated]
  exact ok.positionAt_mono (observed.trans cached) le_rfl p

/-- A step of a process keeps its view of the catalog right. -/
theorem Process.InOrder.effect {process process' : Process} {act : Act} (ok : store.InOrder)
    (order : process.InOrder store)
    (effect : ProcessEffect log config store process act store' process') :
    store'.InOrder ∧ process'.InOrder store' := by
  cases effect with
  | bootFails | crashes => exact ⟨ok, trivial⟩
  | boots loaded =>
    rcases (loadState_loaded loaded).newest ok with ⟨cached, hydrated⟩
    exact ⟨ok, cached.le, store.count, cached.ge, hydrated⟩
  | checks unchecked => exact ⟨ok, Boot.InOrder.checkStream ok order⟩
  | seeks checked =>
    rcases Boot.seek_spec ok order with ⟨position, -, sought⟩
    rw [sought]
    exact ⟨ok, le_rfl, trivial⟩
  | applies | appends | finishes => exact ⟨ok, order.cached, order.tick⟩
  | starts => exact ⟨ok, order.cached, trivial⟩
  | ticks effect =>
    exact ⟨Worker.InOrder.storeChange ok order effect.storeChange,
      Worker.InOrder.tickEffect ok order effect⟩

/-! ## Whole executions -/

namespace System

variable {config : Nat → FlusherConfig}

/-- The catalog is in order, and every worker's view of it is right. -/
def InOrder (s : System) : Prop :=
  Interleaving.Holds ObjectStore.InOrder (fun _ store process => process.InOrder store) s

theorem inOrder_init : init.InOrder :=
  ⟨ObjectStore.inOrder_empty, fun _ => trivial⟩

/-- What one step does to the store, and to the acting process. -/
theorem step_effect (stepped : step log config s action = some t) :
    ∃ store process, ProcessEffect log (config action.worker) s.store
      (s.process action.worker) action.act store process ∧
        t = s.update action.worker store process := by
  rcases Interleaving.step_eq_some_iff.mp stepped with ⟨store, process, taken, rfl⟩
  exact ⟨store, process, Process.step_effect taken, rfl⟩

theorem inOrder_step (ordered : s.InOrder) (stepped : step log config s action = some t) :
    t.InOrder := by
  apply Interleaving.Holds.step ordered stepped
  · intro store process taken
    exact Process.InOrder.effect ordered.shared (ordered.own _) (Process.step_effect taken)
  · intro store process taken j other order
    have effect := Process.step_effect taken
    rcases effect.grows ordered.shared.fresh with ⟨grows, -⟩
    exact order.stable ordered.shared grows
      (Process.InOrder.effect ordered.shared (ordered.own _) effect).1

theorem inOrder_run (performed : run log config actions = some s) : s.InOrder :=
  run_invariant_of_step InOrder
    (fun _ _ _ ordered stepped => inOrder_step ordered stepped) inOrder_init performed

theorem grows_step (fresh : s.store.Fresh) (stepped : step log config s action = some t) :
    s.store.Grows t.store ∧ t.store.Fresh := by
  rcases step_effect stepped with ⟨store, process, effect, rfl⟩
  exact effect.grows fresh

theorem grows_run (fresh : s.store.Fresh)
    (performed : Execution.run (step log config) actions s = some t) : s.store.Grows t.store := by
  have both := run_invariant_of_step
    (fun state : System => s.store.Grows state.store ∧ state.store.Fresh)
    (fun _ _ _ held stepped =>
      have grown := grows_step held.2 stepped
      ⟨held.1.trans grown.1, grown.2⟩)
    ⟨.refl s.store, fresh⟩ performed
  exact both.1

end System

/-- The snapshot a tick is about to commit. -/
def TickState.committing? : TickState → Option SnapshotMeta
  | .commitMerge _ _ _ snapshot => some snapshot
  | .commitData _ _ snapshot => some snapshot
  | _ => none

/-- Action number `j` of the execution is the step of a tick that commits
sequence `k`. -/
def CommittedAt (log : Log) (config : Nat → FlusherConfig) (actions : List Action)
    (k j : Nat) : Prop :=
  ∃ before after i input w snapshot, actions[j]? = some ⟨i, .tick input⟩ ∧
    System.run log config (actions.take j) = some before ∧
    System.step log config before ⟨i, .tick input⟩ = some after ∧
    before.process i = .running w ∧ w.tick.committing? = some snapshot ∧
    snapshot.sequence = k ∧ k ∉ before.store.snapshots ∧
    after.store.snapshots[k]? = some snapshot

namespace System

variable {config : Nat → FlusherConfig}

/-- A sequence that a step makes present is one its tick stood at. -/
theorem committing_of_new (stepped : step log config s action = some t)
    (absent : k ∉ s.store.snapshots) (present : k ∈ t.store.snapshots) :
    ∃ input w snapshot, action.act = .tick input ∧ s.process action.worker = .running w ∧
      w.tick.committing? = some snapshot ∧ snapshot.sequence = k ∧
      t.store.snapshots[k]? = some snapshot := by
  have inserted : ∀ {snapshot : SnapshotMeta}, t.store = s.store.commit snapshot →
      snapshot.sequence ∉ s.store.snapshots →
      snapshot.sequence = k ∧ t.store.snapshots[k]? = some snapshot := by
    intro snapshot committed free
    rw [committed, ObjectStore.commit, commit_of_not_mem free] at present ⊢
    rw [Std.TreeMap.mem_insert, Std.LawfulEqCmp.compare_eq_iff_eq] at present
    rcases present with same | old
    · refine ⟨same, ?_⟩
      rw [same]
      exact Std.TreeMap.getElem?_insert_self
    · exact absurd old absent
  rcases step_effect stepped with ⟨store, process, effect, rfl⟩
  generalize was : s.process action.worker = before at effect
  generalize done : action.act = act at effect
  cases effect with
  | @ticks w w' input store' effect =>
    cases effect.storeChange with
    | @merge seen again publication snapshot stands arrived free =>
      rcases inserted rfl free with ⟨sequence, stored⟩
      exact ⟨input, w, snapshot, rfl, rfl, by rw [stands]; rfl, sequence, stored⟩
    | @batch seen batch snapshot stands arrived free =>
      rcases inserted rfl free with ⟨sequence, stored⟩
      exact ⟨input, w, snapshot, rfl, rfl, by rw [stands]; rfl, sequence, stored⟩
    | _ => exact absurd present absent
  | _ => exact absurd present absent

end System

theorem CommittedAt.append {config : Nat → FlusherConfig} {later : List Action} {j : Nat}
    (committed : CommittedAt log config actions k j) :
    CommittedAt log config (actions ++ later) k j := by
  rcases committed with ⟨before, after, i, input, w, snapshot, action, rest⟩
  have inside : j < actions.length := (List.getElem?_eq_some_iff.mp action).1
  refine ⟨before, after, i, input, w, snapshot, ?_, ?_⟩
  · rw [List.getElem?_append_left inside]
    exact action
  · rw [List.take_append_of_le_length inside.le]
    exact rest

/-- Every committed sequence was committed by some step of a tick. -/
theorem exists_committedAt {config : Nat → FlusherConfig}
    (performed : System.run log config actions = some s) (present : k ∈ s.store.snapshots) :
    ∃ j, CommittedAt log config actions k j := by
  revert k
  refine run_induction_of_step
    (fun past (state : System) => ∀ {k : Nat}, k ∈ state.store.snapshots →
      ∃ j, CommittedAt log config past k j) ?_ ?_ performed
  · intro k present
    simp [System.init, ObjectStore.empty] at present
  · intro past state action after reached ih stepped k present
    by_cases old : k ∈ state.store.snapshots
    · rcases ih old with ⟨j, committed⟩
      exact ⟨j, committed.append⟩
    · rcases System.committing_of_new stepped old present with
        ⟨input, w, snapshot, isTick, running, stands, sequence, stored⟩
      refine ⟨past.length, state, after, action.worker, input, w, snapshot, ?_, ?_, ?_, running,
        stands, sequence, old, stored⟩
      · rw [List.getElem?_append_right le_rfl, Nat.sub_self, ← isTick]
        rfl
      · rw [List.take_left]
        exact reached
      · rw [← isTick]
        exact stepped

theorem committedAt_unique {config : Nat → FlusherConfig} {j j' : Nat}
    (first : CommittedAt log config actions k j) (second : CommittedAt log config actions k j') :
    j = j' := by
  -- a sequence that has been committed is present before any later step
  have notLater : ∀ {a b : Nat}, CommittedAt log config actions k a →
      CommittedAt log config actions k b → ¬ a < b := by
    rintro a b ⟨before, after, i, input, w, snapshot, action, reached, stepped, -, -, -, -, stored⟩
      ⟨before', -, -, -, -, -, -, reached', -, -, -, -, absent, -⟩ less
    have split : actions.take b =
        actions.take a ++ ⟨i, .tick input⟩ :: (actions.take b).drop (a + 1) := by
      have inside := (List.getElem?_eq_some_iff.mp action).1
      have here : (actions.take b)[a]? = some ⟨i, .tick input⟩ := by
        rw [List.getElem?_take_of_lt less]
        exact action
      have inTake := (List.getElem?_eq_some_iff.mp here).1
      conv_lhs => rw [← List.take_append_drop a (actions.take b)]
      rw [List.take_take, Nat.min_eq_left less.le, List.drop_eq_getElem_cons inTake,
        (List.getElem?_eq_some_iff.mp here).2]
    unfold System.run at reached reached'
    rw [split, run_append, reached, Option.bind_some, run_cons, stepped,
      Option.bind_some] at reached'
    have ordered := System.inOrder_step (System.inOrder_run reached) stepped
    have grows := System.grows_run ordered.shared.fresh reached'
    have kept := grows.snapshots k snapshot stored
    rw [Std.TreeMap.getElem?_eq_none absent] at kept
    cases kept
  have atMost := notLater first second
  have atLeast := notLater second first
  omega

/-- After every execution the committed sequences are exactly `1` to `n`, each
was committed by one step of one tick, no snapshot was ever rewritten, and each
snapshot's position covers the one before it. -/
theorem committed_in_order {log : Log} {config : Nat → FlusherConfig} {actions : List Action}
    {s : System} (performed : System.run log config actions = some s) :
    ∃ n, (∀ k, k ∈ s.store.snapshots ↔ 1 ≤ k ∧ k ≤ n) ∧
      (∀ k, 1 ≤ k → k ≤ n → ∃! j, CommittedAt log config actions k j) ∧
      (∀ (past later : List Action) (before : System) (k : Nat) (snapshot : SnapshotMeta),
        actions = past ++ later → System.run log config past = some before →
          before.store.snapshots[k]? = some snapshot → s.store.snapshots[k]? = some snapshot) ∧
      ∀ (k : Nat) (older newer : SnapshotMeta), s.store.snapshots[k]? = some older →
        s.store.snapshots[k + 1]? = some newer →
          newer.streamPosition.dominates older.streamPosition = true := by
  have ordered := (System.inOrder_run performed).shared
  refine ⟨s.store.count, ordered.dense, fun k positive committed => ?_, ?_, ?_⟩
  · rcases exists_committedAt performed ((ordered.dense k).mpr ⟨positive, committed⟩) with
      ⟨j, first⟩
    exact ⟨j, first, fun j' second => committedAt_unique second first⟩
  · rintro past later before k snapshot rfl reached stored
    have rest := performed
    unfold System.run at reached rest
    rw [run_append, reached, Option.bind_some] at rest
    exact (System.grows_run (System.inOrder_run reached).shared.fresh rest).snapshots k snapshot
      stored
  · intro k older newer storedOlder storedNewer
    rw [StreamPosition.dominates_iff]
    intro p
    have committed : k + 1 ≤ s.store.count :=
      ((ordered.dense (k + 1)).mp (KeyedMap.mem_of_getElem? storedNewer)).2
    have advancing := ordered.advancing k p committed
    rwa [ObjectStore.positionAt_of_getElem? storedOlder,
      ObjectStore.positionAt_of_getElem? storedNewer] at advancing

/-- Two workers that both start on the empty table and take turns committing. -/
theorem committed_in_order_taking_turns :
    ∃ s, System.run (Script.lines 3) (fun _ => Script.worker true)
        (Script.boot 0 ++ Script.boot 1 ++ Script.ingest 0 0 1 ++ Script.lead 0 4 ++
          Script.ingest 1 0 1 ++ Script.ingest 1 0 2 ++ Script.lead 1 4) = some s ∧
      2 ∈ s.store.snapshots ∧ ∃ n, ∀ k, k ∈ s.store.snapshots ↔ 1 ≤ k ∧ k ≤ n := by
  refine exists_of_any (fun s => decide (2 ∈ s.store.snapshots)) (by decide) ?_
  intro s performed present
  rcases committed_in_order performed with ⟨n, dense, -⟩
  exact ⟨of_decide_eq_true present, n, dense⟩

end Blaze
