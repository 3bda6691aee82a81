import Blaze.System.DataFiles

/-!
# Rows written twice

Eviction drops a segment only when a committed position covers all of it, so a
new leader's segment may begin below the position it continues from, and its
first rows are then written a second time.  Rows are written at most once exactly
when no committed batch reaches below the position it starts from.
-/

namespace Blaze

open Execution SnapshotCatalog Script

variable {store store' : ObjectStore} {snapshot : SnapshotMeta} {s : System}

/-- The keys of all rows in the data files of a snapshot. -/
def ObjectStore.rowKeys (store : ObjectStore) (snapshot : SnapshotMeta) :
    List (PartitionId × Nat × ScopeId) :=
  (snapshot.dataFiles.flatMap fun file => store.data[file.path.uuid]?.getD []).map Row.key

/-- Each row occurs in the data files of at most one committed snapshot, and at
most once in it. -/
structure ObjectStore.WritesOnce (store : ObjectStore) : Prop where
  nodup : ∀ (k : Nat) (snapshot : SnapshotMeta), store.snapshots[k]? = some snapshot →
    (store.rowKeys snapshot).Nodup
  unique : ∀ (k k' : Nat) (snapshot snapshot' : SnapshotMeta),
    store.snapshots[k]? = some snapshot → store.snapshots[k']? = some snapshot' →
      ∀ key, key ∈ store.rowKeys snapshot → key ∈ store.rowKeys snapshot' → k = k'

/-- A step that commits a batch commits only rows above the position the batch
starts from. -/
def CommitsAbove (store : ObjectStore) : Process → Act → Prop
  | .running w, .tick input =>
      match w.tick with
      | .commitData seen batch snapshot =>
          input.reply ≠ .failed → store.Free snapshot.sequence →
            ∀ row ∈ batch.rows, seen.prevPosition.get row.partition < row.offset
      | _ => True
  | _, _ => True

/-! ## Aligned commits write once -/

/-- The rows of each snapshot are stored, and lie between the position before it
and its own. -/
structure ObjectStore.Layered (store : ObjectStore) : Prop where
  held : ∀ (k : Nat) (snapshot : SnapshotMeta), store.snapshots[k]? = some snapshot →
    ∀ file ∈ snapshot.dataFiles, (store.data[file.path.uuid]?).isSome
  nodup : ∀ (k : Nat) (snapshot : SnapshotMeta), store.snapshots[k]? = some snapshot →
    (store.rowKeys snapshot).Nodup
  between : ∀ (k : Nat) (snapshot : SnapshotMeta), store.snapshots[k]? = some snapshot →
    ∀ key ∈ store.rowKeys snapshot,
      store.positionAt (k - 1) key.1 < key.2.1 ∧ key.2.1 ≤ store.positionAt k key.1

theorem ObjectStore.Layered.writesOnce (ok : store.InOrder) (layered : store.Layered) :
    store.WritesOnce where
  nodup := layered.nodup
  unique k k' snapshot snapshot' stored stored' key member member' := by
    have inside : ∀ {n : Nat} {held : SnapshotMeta}, store.snapshots[n]? = some held →
        n ≤ store.count := by
      intro n held present
      exact ((ok.dense n).mp (KeyedMap.mem_of_getElem? present)).2
    rcases layered.between k snapshot stored key member with ⟨above, below⟩
    rcases layered.between k' snapshot' stored' key member' with ⟨above', below'⟩
    rcases Nat.lt_trichotomy k k' with less | same | more
    · have order := ok.positionAt_mono (show k ≤ k' - 1 by omega)
        (by have := inside stored'; omega) key.1
      omega
    · exact same
    · have order := ok.positionAt_mono (show k' ≤ k - 1 by omega)
        (by have := inside stored; omega) key.1
      omega

/-- The rows of a batch as they stand in the catalog once it is committed. -/
theorem rowKeys_of_batch {batch : Batch} {path : ObjectPath}
    (listed : snapshot.dataFiles = [batch.dataFile path])
    (held : store.data[path.uuid]? = some batch.rows) :
    store.rowKeys snapshot = batch.rows.map Row.key := by
  unfold ObjectStore.rowKeys
  rw [listed, List.flatMap_singleton]
  change (store.data[path.uuid]?.getD []).map Row.key = _
  rw [held]
  rfl

theorem rowKeys_nil (none : snapshot.dataFiles = []) : store.rowKeys snapshot = [] := by
  simp [ObjectStore.rowKeys, none]

theorem mem_rowKeys_of_grows (grows : store.Grows store') {key : PartitionId × Nat × ScopeId}
    (member : key ∈ store.rowKeys snapshot) : key ∈ store'.rowKeys snapshot := by
  unfold ObjectStore.rowKeys at member ⊢
  rcases List.mem_map.mp member with ⟨row, inFiles, rfl⟩
  rcases List.mem_flatMap.mp inFiles with ⟨file, listed, inFile⟩
  refine List.mem_map.mpr ⟨row, List.mem_flatMap.mpr ⟨file, listed, ?_⟩, rfl⟩
  cases stored : store.data[file.path.uuid]? with
  | none =>
    rw [stored] at inFile
    cases inFile
  | some rows =>
    rw [stored] at inFile
    rw [grows.data _ _ stored]
    exact inFile

theorem rowKeys_of_grows (grows : store.Grows store')
    (held : ∀ file ∈ snapshot.dataFiles, (store.data[file.path.uuid]?).isSome) :
    store'.rowKeys snapshot = store.rowKeys snapshot := by
  unfold ObjectStore.rowKeys
  congr 1
  apply List.flatMap_congr
  intro file listed
  rcases Option.isSome_iff_exists.mp (held file listed) with ⟨rows, stored⟩
  rw [stored, grows.data _ _ stored]

/-- Writing other objects does not change the committed rows. -/
theorem ObjectStore.Layered.of_snapshots (layered : store.Layered) (grows : store.Grows store')
    (same : store'.snapshots = store.snapshots) : store'.Layered := by
  have keys : ∀ {k : Nat} {snapshot : SnapshotMeta}, store.snapshots[k]? = some snapshot →
      store'.rowKeys snapshot = store.rowKeys snapshot := fun stored =>
    rowKeys_of_grows grows (layered.held _ _ stored)
  have positions : ∀ k p, store'.positionAt k p = store.positionAt k p := by
    intro k p
    unfold ObjectStore.positionAt
    rw [same]
  refine ⟨fun k snapshot stored file listed => ?_, fun k snapshot stored => ?_,
    fun k snapshot stored key member => ?_⟩
  · rw [same] at stored
    rcases Option.isSome_iff_exists.mp (layered.held k snapshot stored file listed) with
      ⟨rows, rowsStored⟩
    rw [grows.data _ _ rowsStored]
    rfl
  · rw [same] at stored
    rw [keys stored]
    exact layered.nodup k snapshot stored
  · rw [same] at stored
    rw [keys stored] at member
    rw [positions, positions]
    exact layered.between k snapshot stored key member

/-- A commit whose rows lie between the newest position and its own. -/
theorem ObjectStore.Layered.append (ok : store.InOrder) (layered : store.Layered)
    (appended : store.Appended snapshot)
    (held : ∀ file ∈ snapshot.dataFiles, (store.data[file.path.uuid]?).isSome)
    (nodup : (store.rowKeys snapshot).Nodup) (between : ∀ key ∈ store.rowKeys snapshot,
      store.positionAt store.count key.1 < key.2.1 ∧
        key.2.1 ≤ snapshot.streamPosition.get key.1) : (store.commit snapshot).Layered := by
  have grows := ObjectStore.grows_commit store snapshot
  -- a committed snapshot is the new one or was there before
  have split : ∀ {k : Nat} {other : SnapshotMeta},
      (store.commit snapshot).snapshots[k]? = some other →
        k = store.count + 1 ∧ other = snapshot ∨
          k ≤ store.count ∧ store.snapshots[k]? = some other := by
    intro k other stored
    by_cases newest : k = store.count + 1
    · subst newest
      rw [appended.stored] at stored
      cases stored
      exact Or.inl ⟨rfl, rfl⟩
    · have inside := KeyedMap.mem_of_getElem? stored
      have bound := ((appended.inOrder.dense k).mp inside).2
      rw [appended.count] at bound
      have old : k ≤ store.count := by omega
      rw [snapshot_stable ok grows appended.inOrder old] at stored
      exact Or.inr ⟨old, stored⟩
  refine ⟨fun k other stored => ?_, fun k other stored => ?_, fun k other stored key member => ?_⟩
  · rcases split stored with ⟨-, rfl⟩ | ⟨-, old⟩
    · exact held
    · exact layered.held k other old
  · rcases split stored with ⟨-, rfl⟩ | ⟨-, old⟩
    · exact nodup
    · exact layered.nodup k other old
  · rcases split stored with ⟨rfl, rfl⟩ | ⟨inside, old⟩
    · rw [Nat.add_sub_cancel, positionAt_stable ok grows appended.inOrder le_rfl,
        ObjectStore.positionAt_of_getElem? appended.stored]
      exact between key member
    · rw [positionAt_stable ok grows appended.inOrder (by omega),
        positionAt_stable ok grows appended.inOrder inside]
      exact layered.between k other old key member

theorem ObjectStore.Layered.storeChange {log : Log} {input : TickInput} {w : Worker}
    (ok : store.InOrder) (order : w.InOrder store) (data : w.DataOk log store)
    (layered : store.Layered) (above : CommitsAbove store (.running w) (.tick input))
    (change : StoreChange input w store store') : store'.Layered := by
  rcases change.grows ok.fresh with ⟨grows, -⟩
  cases change with
  | same => exact layered
  | puffin | data => exact layered.of_snapshots grows rfl
  | @merge seen again publication snapshot stands arrived taken =>
    have empty := data.tick
    rw [stands] at empty
    have noFiles : snapshot.dataFiles = [] := empty
    rcases Worker.InOrder.merged ok order stands taken with ⟨appended, -⟩
    exact layered.append ok appended (by simp [noFiles]) (by simp [rowKeys_nil noFiles])
      (by simp [rowKeys_nil noFiles])
  | @batch seen batch snapshot stands arrived taken =>
    have tick := order.tick
    have batched := data.tick
    rw [stands] at tick batched
    simp only [CommitsAbove, stands] at above
    rcases batched with ⟨⟨records, contains⟩, path, listed, held⟩
    rcases Worker.InOrder.committed ok order stands taken with ⟨appended, atCount, -⟩
    have keys := rowKeys_of_batch listed held
    refine layered.append ok appended ?_ ?_ ?_
    · rw [listed]
      simpa [Batch.dataFile] using Option.isSome_of_eq_some held
    · rw [keys, (contains.rows.map Row.key).nodup_iff]
      exact contains.ordered.key_rows_nodup
    · rw [keys]
      rintro key member
      rcases List.mem_map.mp member with ⟨row, inBatch, rfl⟩
      rcases List.mem_flatMap.mp (contains.rows.mem_iff.mp inBatch) with
        ⟨record, inRecords, ofRecord⟩
      rcases Record.of_mem_rows ofRecord with ⟨samePartition, sameOffset⟩
      constructor
      · rw [← atCount, ← tick.1.position]
        exact above arrived taken row inBatch
      · rw [tick.2.2.2]
        change row.offset ≤ batch.position.get row.partition
        rw [samePartition, sameOffset]
        exact contains.covered record inRecords

/-! ## Misaligned commits write twice -/

/-- Some row is in the data files of two snapshots. -/
def ObjectStore.Repeats (store : ObjectStore) : Prop :=
  ∃ (k k' : Nat) (snapshot snapshot' : SnapshotMeta) (key : PartitionId × Nat × ScopeId),
    k < k' ∧ store.snapshots[k]? = some snapshot ∧ store.snapshots[k']? = some snapshot' ∧
      key ∈ store.rowKeys snapshot ∧ key ∈ store.rowKeys snapshot'

theorem ObjectStore.Repeats.grows (grows : store.Grows store') (repeats : store.Repeats) :
    store'.Repeats := by
  rcases repeats with ⟨k, k', snapshot, snapshot', key, less, stored, stored', member, member'⟩
  exact ⟨k, k', snapshot, snapshot', key, less, grows.snapshots _ _ stored,
    grows.snapshots _ _ stored', mem_rowKeys_of_grows grows member,
    mem_rowKeys_of_grows grows member'⟩

theorem ObjectStore.Repeats.not_writesOnce (repeats : store.Repeats) : ¬ store.WritesOnce := by
  rcases repeats with ⟨k, k', snapshot, snapshot', key, less, stored, stored', member, member'⟩
  intro once
  exact less.ne (once.unique k k' snapshot snapshot' stored stored' key member member')

/-- A row at or below the position a batch starts from is already in an earlier
data file when the batch is committed. -/
theorem repeats_of_not_commitsAbove {log : Log} {config : FlusherConfig}
    {process process' : Process} {act : Act} (ok : store.InOrder) (order : process.InOrder store)
    (covered : store.Covered log) (data : process.DataOk log store)
    (effect : ProcessEffect log config store process act store' process')
    (misaligned : ¬ CommitsAbove store process act) : store'.Repeats := by
  cases effect with
  | @ticks w w' input store' effect =>
    cases stands : w.tick with
    | commitData seen batch snapshot =>
      simp only [CommitsAbove, stands, not_forall, not_lt] at misaligned
      rcases misaligned with ⟨arrived, free, row, inBatch, below⟩
      have tick := order.tick
      have batched := data.tick
      rw [stands] at tick batched
      rcases batched with ⟨⟨records, contains⟩, path, listed, held⟩
      rcases Worker.InOrder.committed ok order stands free with ⟨appended, atCount, -⟩
      rcases List.mem_flatMap.mp (contains.rows.mem_iff.mp inBatch) with
        ⟨record, inRecords, ofRecord⟩
      rcases Record.of_mem_rows ofRecord with ⟨samePartition, sameOffset⟩
      rw [samePartition, sameOffset, tick.1.position, atCount] at below
      rcases covered store.count record le_rfl (contains.logged record inRecords) below with
        ⟨j, earlier, file, rows, before, stored, fileListed, rowsHeld, all⟩
      have grows := ObjectStore.grows_commit store snapshot
      rw [effect.batch_arrives stands arrived free]
      refine ⟨j, store.count + 1, earlier, snapshot, row.key, by omega,
        grows.snapshots _ _ stored, appended.stored, ?_, ?_⟩
      · apply mem_rowKeys_of_grows grows
        refine List.mem_map.mpr ⟨row, List.mem_flatMap.mpr ⟨file, fileListed, ?_⟩, rfl⟩
        rw [rowsHeld]
        exact all row ofRecord
      · apply mem_rowKeys_of_grows grows
        rw [rowKeys_of_batch listed held]
        exact List.mem_map.mpr ⟨row, inBatch, rfl⟩
    | _ => simp [CommitsAbove, stands] at misaligned
  | crashes => cases process <;> exact absurd trivial misaligned
  | _ => exact absurd trivial misaligned

namespace System

variable {log : Log} {config : Nat → FlusherConfig}

/-- The action commits only rows above the position its batch starts from. -/
def CommitsAbove (s : System) (action : Action) : Prop :=
  Blaze.CommitsAbove s.store (s.process action.worker) action.act

theorem layered_step {t : System} {action : Action} (data : s.DataOk log)
    (layered : s.store.Layered) (above : s.CommitsAbove action)
    (stepped : step log config s action = some t) : t.store.Layered := by
  rcases data with ⟨ordered, holds⟩
  rcases step_effect stepped with ⟨store, process, effect, rfl⟩
  unfold CommitsAbove at above
  have order := ordered.own action.worker
  have own := holds.own action.worker
  generalize s.process action.worker = before at effect above order own
  generalize action.act = act at effect above
  cases effect with
  | ticks effect =>
    exact ObjectStore.Layered.storeChange ordered.shared order own layered above effect.storeChange
  | _ => exact layered

/-- After an execution in which every commit is aligned, the rows of each
snapshot lie between its neighbours' positions. -/
theorem layered_run {actions : List Action} (performed : run log config actions = some s)
    (aligned : Allowed (step log config) CommitsAbove actions init) :
    s.store.Layered := by
  have both := run_invariant (fun state : System => state.DataOk log ∧
    state.store.Layered) (fun state action after held above stepped =>
      ⟨dataOk_step held.1 stepped, layered_step held.1 held.2 above stepped⟩)
    ⟨dataOk_init, by constructor <;> simp [init, ObjectStore.empty]⟩ performed aligned
  exact both.2

/-- An execution with a misaligned commit has written some row twice. -/
theorem repeats_run {actions : List Action} (performed : run log config actions = some s)
    (misaligned : ¬ Allowed (step log config) CommitsAbove actions init) :
    s.store.Repeats := by
  apply run_of_not_allowed (fun state : System => state.store.Repeats) _ _ performed
    misaligned
  · intro past state action after reached _ apart stepped
    rcases dataOk_run reached with ⟨ordered, holds⟩
    rcases step_effect stepped with ⟨store, process, effect, rfl⟩
    exact repeats_of_not_commitsAbove ordered.shared (ordered.own _) holds.shared (holds.own _)
      effect apart
  · intro past state action after reached repeats stepped
    exact repeats.grows (grows_step (inOrder_run reached).shared.fresh stepped).1

end System

/-- In every execution, each row is written at most once exactly when every batch
that was committed lay above the position it started from. -/
theorem writesOnce_iff_commitsAbove {log : Log} {config : Nat → FlusherConfig}
    {actions : List Action} {s : System} (performed : System.run log config actions = some s) :
    s.store.WritesOnce ↔
      Allowed (System.step log config) System.CommitsAbove actions System.init := by
  constructor
  · intro once
    by_contra misaligned
    exact (System.repeats_run performed misaligned).not_writesOnce once
  · intro aligned
    exact (System.layered_run performed aligned).writesOnce (System.inOrder_run performed).shared

/-- Both workers start on the empty table.  The first one commits record 1; the
second one, which holds records 1 and 2 in one segment, then commits both. -/
theorem writes_twice_after_handoff :
    ∃ s, System.run (lines 3) (fun _ => worker true)
        (boot 0 ++ boot 1 ++ ingest 0 0 1 ++ lead 0 4 ++
          ingest 1 0 1 ++ ingest 1 0 2 ++ lead 1 4) = some s ∧
      ¬ s.store.WritesOnce := by
  refine exists_of_any (fun s => s.store.snapshots[1]?.any fun first =>
    s.store.snapshots[2]?.any fun second => decide ((0, 1, 0) ∈ s.store.rowKeys first ∧
      (0, 1, 0) ∈ s.store.rowKeys second)) (by decide) ?_
  intro s performed present
  rcases (Option.any_eq_true _ _).mp present with ⟨first, storedFirst, rest⟩
  rcases (Option.any_eq_true _ _).mp rest with ⟨second, storedSecond, both⟩
  rw [decide_eq_true_eq] at both
  apply ObjectStore.Repeats.not_writesOnce
  exact ⟨1, 2, first, second, (0, 1, 0), by decide, storedFirst, storedSecond, both.1, both.2⟩

/-- A worker that restarts continues above what it had committed. -/
theorem writesOnce_iff_commitsAbove_after_restart :
    ∃ s, System.run (lines 3) (fun _ => worker true)
        (boot 0 ++ ingest 0 0 1 ++ lead 0 4 ++ [⟨0, .crash⟩] ++
          boot 0 ++ ingest 0 0 2 ++ lead 0 4) = some s ∧
      2 ∈ s.store.snapshots ∧
      (s.store.WritesOnce ↔ Allowed
        (System.step (lines 3) fun _ => worker true) System.CommitsAbove
        (boot 0 ++ ingest 0 0 1 ++ lead 0 4 ++ [⟨0, .crash⟩] ++
          boot 0 ++ ingest 0 0 2 ++ lead 0 4) System.init) := by
  refine exists_of_any (fun s => decide (2 ∈ s.store.snapshots)) (by decide) ?_
  intro s performed present
  exact ⟨of_decide_eq_true present, writesOnce_iff_commitsAbove performed⟩

end Blaze
