import Blaze.Lib.Fallible
import Blaze.Storage.TickSteps
import Blaze.System.Model

/-!
# What a step of a process can do

The inversion lemma for processes, and the facts about the store that hold
whatever the step was: objects and snapshots are only ever added.
-/

namespace Blaze

open Fallible

variable {log : Log} {config : FlusherConfig} {store store' : ObjectStore} {w w' : Worker}
  {input : TickInput} {process process' : Process} {act : Act} {boot : Boot}
  {snapshot : SnapshotMeta}

/-! ## The parts of a worker that ingest and merging change -/

namespace Worker

/-- Applying a record changes the forest and remembers the record. -/
theorem applyRecord_spec {p : PartitionId} {o : Nat} (applied : w.applyRecord log p o = some w') :
    ∃ event, w.applying = none ∧ log.IsNext w.position p o ∧ log.record p o = some event ∧
      w' = { w with forest := w.forest.apply event, applying := some ⟨p, o, event⟩ } := by
  unfold applyRecord at applied
  split at applied
  · next enabled =>
      rcases Option.map_eq_some_iff.mp applied with ⟨event, stored, rfl⟩
      exact ⟨event, Option.isNone_iff_eq_none.mp enabled.1, enabled.2, stored, rfl⟩
  · cases applied

/-- Appending moves the record to the buffer and the position past it. -/
theorem appendRecord_spec (appended : w.appendRecord = some w') :
    ∃ record, w.applying = some record ∧
      w' = { w with
        buffer := w.buffer.append record
        position := w.position.advance record.partition record.offset
        applying := none } := by
  rcases Option.map_eq_some_iff.mp appended with ⟨record, held, rfl⟩
  exact ⟨record, held, rfl⟩

/-- The merge thread only sets the result of the merge in flight. -/
theorem finishMerge_spec {diskOk : Bool} (done : w.finishMerge diskOk = some w') :
    ∃ pending, w.pendingMerge = some pending ∧ pending.finished = none ∧
      w' = { w with
        pendingMerge := some { pending with
          finished := some (if diskOk then .ok (compactLayers pending.stack)
            else .error .disk) } } := by
  unfold finishMerge at done
  cases held : w.pendingMerge with
  | none =>
    rw [held] at done
    cases done
  | some pending =>
    rw [held] at done
    dsimp only at done
    split at done
    · cases done
    · next running =>
        cases done
        exact ⟨pending, rfl, by simpa using running, rfl⟩

theorem startTick_spec (started : w.startTick = some w') :
    (∃ result, w.tick = .idle result) ∧
      w' = { w with buffer := w.buffer.sealActive, tick := .readLatest } := by
  unfold startTick at started
  split at started
  · next result idle =>
      cases started
      exact ⟨⟨result, idle⟩, rfl⟩
  · cases started

end Worker

/-! ## The steps of a process -/

/-- What one step does to the store and the process. -/
inductive ProcessEffect (log : Log) (config : FlusherConfig) (store : ObjectStore) :
    Process → Act → ObjectStore → Process → Prop
  | bootFails : ProcessEffect log config store .offline .boot store .offline
  | boots {boot : Boot} (loaded : loadState config store = .ok boot) :
      ProcessEffect log config store .offline .boot store (.booting boot)
  | checks {boot : Boot} (unchecked : boot.streamChecked = false) :
      ProcessEffect log config store (.booting boot) .checkStream store
        (boot.checkStream config store)
  | seeks {boot : Boot} (checked : boot.streamChecked = true) :
      ProcessEffect log config store (.booting boot) .seek store (boot.seek store)
  | applies {w : Worker} {p : PartitionId} {o : Nat} {event : EdgeEvent}
      (idle : w.applying = none) (isNext : log.IsNext w.position p o)
      (stored : log.record p o = some event) :
      ProcessEffect log config store (.running w) (.apply p o) store
        (.running { w with forest := w.forest.apply event, applying := some ⟨p, o, event⟩ })
  | appends {w : Worker} {record : Record} (held : w.applying = some record) :
      ProcessEffect log config store (.running w) .append store
        (.running { w with
          buffer := w.buffer.append record
          position := w.position.advance record.partition record.offset
          applying := none })
  | finishes {w : Worker} {diskOk : Bool} {pending : PendingMerge}
      (held : w.pendingMerge = some pending) :
      ProcessEffect log config store (.running w) (.finishMerge diskOk) store
        (.running { w with
          pendingMerge := some { pending with
            finished := some (if diskOk then .ok (compactLayers pending.stack)
              else .error .disk) } })
  | starts {w : Worker} : ProcessEffect log config store (.running w) .startTick store
      (.running { w with buffer := w.buffer.sealActive, tick := .readLatest })
  | ticks {w w' : Worker} {input : TickInput} {store' : ObjectStore}
      (effect : Worker.TickEffect config input store w store' w') :
      ProcessEffect log config store (.running w) (.tick input) store' (.running w')
  | crashes {process : Process} : ProcessEffect log config store process .crash store .offline

/-- Every step of a process has one of these effects. -/
theorem Process.step_effect
    (stepped : process.step log config store act = some (store', process')) :
    ProcessEffect log config store process act store' process' := by
  cases process with
  | offline =>
    cases act with
    | boot =>
      simp only [Process.step] at stepped
      cases loaded : loadState config store with
      | error text =>
        rw [loaded] at stepped
        cases stepped
        exact .bootFails
      | ok boot =>
        rw [loaded] at stepped
        cases stepped
        exact .boots loaded
    | _ => cases stepped
  | booting boot =>
    cases act with
    | checkStream =>
      simp only [Process.step] at stepped
      split at stepped
      · cases stepped
      · next unchecked =>
          cases stepped
          exact .checks (by simpa using unchecked)
    | seek =>
      simp only [Process.step] at stepped
      split at stepped
      · next checked =>
          cases stepped
          exact .seeks checked
      · cases stepped
    | crash =>
      cases stepped
      exact .crashes
    | _ => cases stepped
  | running w =>
    cases act with
    | apply p o =>
      obtain ⟨w', applied, ⟨⟩⟩ := Option.map_eq_some_iff.mp stepped
      obtain ⟨event, idle, isNext, stored, rfl⟩ := Worker.applyRecord_spec applied
      exact .applies idle isNext stored
    | append =>
      obtain ⟨w', appended, ⟨⟩⟩ := Option.map_eq_some_iff.mp stepped
      obtain ⟨record, held, rfl⟩ := Worker.appendRecord_spec appended
      exact .appends held
    | finishMerge diskOk =>
      obtain ⟨w', finished, ⟨⟩⟩ := Option.map_eq_some_iff.mp stepped
      obtain ⟨pending, held, -, rfl⟩ := Worker.finishMerge_spec finished
      exact .finishes held
    | startTick =>
      obtain ⟨w', started, ⟨⟩⟩ := Option.map_eq_some_iff.mp stepped
      obtain ⟨-, rfl⟩ := Worker.startTick_spec started
      exact .starts
    | tick input =>
      obtain ⟨⟨after, w'⟩, ticked, ⟨⟩⟩ := Option.map_eq_some_iff.mp stepped
      exact .ticks (Worker.tickStep_effect ticked)
    | crash =>
      cases stepped
      exact .crashes
    | _ => cases stepped

/-! ## Loading state -/

/-- What loading state returns: nothing committed, a stack of mapped files, or a
hydrated memtable. -/
inductive Loaded (config : FlusherConfig) (store : ObjectStore) : Boot → Prop
  | fresh {cachedSeq : Nat}
      (read : SnapshotCatalog.latest store.snapshots 0 = (cachedSeq, .ok none)) :
      Loaded config store ⟨newForest config ScopedForest.new, none, none, cachedSeq, false⟩
  | opened {cachedSeq : Nat} {latest : SnapshotMeta} {base : LayeredBase} {layers : LocalLayers}
      (disk : config.diskMode = true)
      (read : SnapshotCatalog.latest store.snapshots 0 = (cachedSeq, .ok (some latest)))
      (mapped : openBase store latest = .ok (base, layers)) :
      Loaded config store ⟨newForest config (ScopedForest.withBase base), some layers,
        some latest, cachedSeq, false⟩
  | hydrated {cachedSeq : Nat} {latest : SnapshotMeta} {runs : List RunMeta}
      {files : List PuffinBase} (ram : config.diskMode = false)
      (read : SnapshotCatalog.latest store.snapshots 0 = (cachedSeq, .ok (some latest)))
      (listed : committedRuns store.snapshots latest = .ok runs)
      (fetched : fetchRuns store runs = .ok files) :
      Loaded config store ⟨hydrateAll (newForest config ScopedForest.new) files, none,
        some latest, cachedSeq, false⟩

theorem loadState_loaded (loaded : loadState config store = .ok boot) :
    Loaded config store boot := by
  unfold loadState at loaded
  cases read : SnapshotCatalog.latest store.snapshots 0 with
  | mk cachedSeq found =>
    rw [read] at loaded
    rcases bind_eq_ok_iff.mp loaded with ⟨latest, rfl, state⟩
    cases latest with
    | none =>
      cases state
      exact .fresh read
    | some latest =>
      dsimp only at state
      split at state
      · next disk =>
          rcases bind_eq_ok_iff.mp state with ⟨⟨base, layers⟩, mapped, ⟨⟩⟩
          exact .opened disk read mapped
      · next ram =>
          rcases bind_eq_ok_iff.mp state with ⟨runs, listed, rest⟩
          rcases bind_eq_ok_iff.mp rest with ⟨files, fetched, ⟨⟩⟩
          exact .hydrated (by simpa using ram) read listed fetched

/-- The catalog read of a boot that loaded something. -/
theorem Loaded.read (loaded : Loaded config store boot) :
    SnapshotCatalog.latest store.snapshots 0 = (boot.cachedSeq, .ok boot.hydrated) := by
  cases loaded with
  | fresh read => exact read
  | opened disk read mapped => exact read
  | hydrated ram read listed fetched => exact read

/-- Checking the stream ends the boot or marks it as checked. -/
theorem Boot.checkStream_cases (config : FlusherConfig) (store : ObjectStore) (boot : Boot) :
    boot.checkStream config store = .offline ∨ ∃ cachedSeq,
      (cachedSeq = boot.cachedSeq ∨
        cachedSeq = (SnapshotCatalog.latest store.snapshots boot.cachedSeq).1) ∧
      boot.checkStream config store =
        .booting { boot with cachedSeq, streamChecked := true } := by
  unfold checkStream
  split
  · exact Or.inr ⟨boot.cachedSeq, Or.inl rfl, rfl⟩
  · dsimp only
    split
    · exact Or.inl rfl
    · split
      · exact Or.inr ⟨_, Or.inr rfl, rfl⟩
      · exact Or.inl rfl

/-- What holds of an ended boot and of one marked as checked holds after the check. -/
theorem Boot.checkStream_rule {P : Process → Prop} (offline : P .offline)
    (marked : ∀ cachedSeq, (cachedSeq = boot.cachedSeq ∨
        cachedSeq = (SnapshotCatalog.latest store.snapshots boot.cachedSeq).1) →
      P (.booting { boot with cachedSeq, streamChecked := true })) :
    P (boot.checkStream config store) := by
  rcases checkStream_cases config store boot with off | ⟨cachedSeq, source, checked⟩
  · rw [off]
    exact offline
  · rw [checked]
    exact marked cachedSeq source

theorem Boot.worker?_checkStream (boot : Boot) : (boot.checkStream config store).worker? = none :=
  checkStream_rule (P := fun process => process.worker? = none) rfl fun _ _ => rfl

/-! ## The store only grows -/

namespace ObjectStore

/-- No object has been written under an identifier that is still to come. -/
structure Fresh (store : ObjectStore) : Prop where
  puffins : ∀ id ∈ store.puffins, id < store.nextUuid
  data : ∀ id ∈ store.data, id < store.nextUuid

/-- Everything that was stored is still stored, unchanged. -/
structure Grows (store store' : ObjectStore) : Prop where
  snapshots : ∀ (k : Nat) (snapshot : SnapshotMeta), store.snapshots[k]? = some snapshot →
    store'.snapshots[k]? = some snapshot
  puffins : ∀ (id : Nat) (file : PuffinBase), store.puffins[id]? = some file →
    store'.puffins[id]? = some file
  data : ∀ (id : Nat) (rows : List Row), store.data[id]? = some rows →
    store'.data[id]? = some rows

theorem Grows.refl (store : ObjectStore) : store.Grows store :=
  ⟨fun _ _ stored => stored, fun _ _ stored => stored, fun _ _ stored => stored⟩

theorem Grows.trans {first second third : ObjectStore} (one : first.Grows second)
    (two : second.Grows third) : first.Grows third :=
  ⟨fun k s stored => two.snapshots k s (one.snapshots k s stored),
    fun id file stored => two.puffins id file (one.puffins id file stored),
    fun id rows stored => two.data id rows (one.data id rows stored)⟩

theorem Grows.mem_snapshots (grows : store.Grows store') {k : Nat}
    (committed : k ∈ store.snapshots) :
    k ∈ store'.snapshots :=
  KeyedMap.mem_of_holds grows.snapshots committed

/-- An insertion under a new key keeps what is stored. -/
theorem getElem?_insert_of_fresh {δ : Type} {objects : Std.TreeMap Nat δ} {key id : Nat}
    {value stored : δ} (fresh : key ∉ objects) (held : objects[id]? = some stored) :
    (objects.insert key value)[id]? = some stored := by
  rw [Std.TreeMap.getElem?_insert]
  split
  · next same =>
      have equal : key = id := Std.LawfulEqCmp.eq_of_compare same
      subst equal
      rw [Std.TreeMap.getElem?_eq_none fresh] at held
      cases held
  · exact held

theorem grows_putPuffin (fresh : store.Fresh) (file : PuffinBase) :
    store.Grows (store.putPuffin file) where
  snapshots _ _ stored := stored
  puffins _ _ stored := getElem?_insert_of_fresh
    (fun taken => lt_irrefl _ (fresh.puffins _ taken)) stored
  data _ _ stored := stored

theorem grows_putData (fresh : store.Fresh) (rows : List Row) :
    store.Grows (store.putData rows) where
  snapshots _ _ stored := stored
  puffins _ _ stored := stored
  data _ _ stored := getElem?_insert_of_fresh
    (fun taken => lt_irrefl _ (fresh.data _ taken)) stored

theorem grows_commit (store : ObjectStore) (snapshot : SnapshotMeta) :
    store.Grows (store.commit snapshot) where
  snapshots k held stored := by
    unfold commit
    by_cases taken : snapshot.sequence ∈ store.snapshots
    · rw [SnapshotCatalog.commit_of_mem taken]
      exact stored
    · rw [SnapshotCatalog.commit_of_not_mem taken]
      exact getElem?_insert_of_fresh taken stored
  puffins _ _ stored := stored
  data _ _ stored := stored

theorem Fresh.putPuffin (fresh : store.Fresh) (file : PuffinBase) :
    (store.putPuffin file).Fresh where
  puffins id stored := by
    change id ∈ store.puffins.insert store.nextUuid file at stored
    change id < store.nextUuid + 1
    rw [Std.TreeMap.mem_insert, Std.LawfulEqCmp.compare_eq_iff_eq] at stored
    rcases stored with rfl | old
    · exact Nat.lt_succ_self _
    · exact (fresh.puffins id old).trans (Nat.lt_succ_self _)
  data id stored := (fresh.data id stored).trans (Nat.lt_succ_self _)

theorem Fresh.putData (fresh : store.Fresh) (rows : List Row) : (store.putData rows).Fresh where
  puffins id stored := (fresh.puffins id stored).trans (Nat.lt_succ_self _)
  data id stored := by
    change id ∈ store.data.insert store.nextUuid rows at stored
    change id < store.nextUuid + 1
    rw [Std.TreeMap.mem_insert, Std.LawfulEqCmp.compare_eq_iff_eq] at stored
    rcases stored with rfl | old
    · exact Nat.lt_succ_self _
    · exact (fresh.data id old).trans (Nat.lt_succ_self _)

/-- A commit at a taken sequence changes nothing. -/
theorem commit_of_mem (taken : snapshot.sequence ∈ store.snapshots) :
    store.commit snapshot = store := by
  unfold commit
  rw [SnapshotCatalog.commit_of_mem taken]

/-- A stored snapshot was stored before, or it is the one that was committed. -/
theorem getElem?_commit {k : Nat} {held : SnapshotMeta}
    (stored : (store.commit snapshot).snapshots[k]? = some held) :
    store.snapshots[k]? = some held ∨ snapshot.sequence ∉ store.snapshots ∧ held = snapshot := by
  by_cases taken : snapshot.sequence ∈ store.snapshots
  · rw [commit_of_mem taken] at stored
    exact Or.inl stored
  · unfold commit at stored
    rw [SnapshotCatalog.commit_of_not_mem taken, Std.TreeMap.getElem?_insert] at stored
    split at stored
    · exact Or.inr ⟨taken, (Option.some.inj stored).symm⟩
    · exact Or.inl stored

theorem Fresh.commit (fresh : store.Fresh) (snapshot : SnapshotMeta) :
    (store.commit snapshot).Fresh :=
  ⟨fresh.puffins, fresh.data⟩

theorem fresh_empty : empty.Fresh := by
  constructor <;> simp [empty]

end ObjectStore

/-- A tick adds at most one object, or commits the snapshot it stands at. -/
inductive StoreChange (input : TickInput) (w : Worker) (store : ObjectStore) : ObjectStore → Prop
  | same : StoreChange input w store store
  | puffin (file : PuffinBase) : StoreChange input w store (store.putPuffin file)
  | data (rows : List Row) : StoreChange input w store (store.putData rows)
  | merge {seen : Observed} {again : Bool} {publication : Publication} {snapshot : SnapshotMeta}
      (stands : w.tick = .commitMerge seen again publication snapshot)
      (arrived : input.reply ≠ .failed) (free : snapshot.sequence ∉ store.snapshots) :
      StoreChange input w store (store.commit snapshot)
  | batch {seen : Observed} {batch : Batch} {snapshot : SnapshotMeta}
      (stands : w.tick = .commitData seen batch snapshot) (arrived : input.reply ≠ .failed)
      (free : snapshot.sequence ∉ store.snapshots) :
      StoreChange input w store (store.commit snapshot)

/-- A commit of a sequence that is taken changes nothing. -/
theorem StoreChange.of_commit
    (free : snapshot.sequence ∉ store.snapshots →
      StoreChange input w store (store.commit snapshot)) :
    StoreChange input w store (store.commit snapshot) := by
  by_cases taken : snapshot.sequence ∈ store.snapshots
  · rw [ObjectStore.commit_of_mem taken]
    exact .same
  · exact free taken

theorem Worker.TickEffect.storeChange (effect : TickEffect config input store w store' w') :
    StoreChange input w store store' := by
  cases effect with
  | putMergeFails stands reply uploaded | putPuffinFails stands reply uploaded =>
    rcases uploaded with rfl | rfl
    · exact .same
    · exact .puffin _
  | undescribable | putMerge | refused | putPuffin => exact .puffin _
  | commitMergeLost stands reply | spliceFails stands reply | commitMerge stands reply =>
    exact .of_commit (.merge stands (by simp [reply]))
  | putDataFails stands reply uploaded =>
    rcases uploaded with rfl | rfl
    · exact .same
    · exact .data _
  | foldFails | putData => exact .data _
  | commitDataLost stands reply | commitData stands reply =>
    exact .of_commit (.batch stands (by simp [reply]))
  | _ => exact .same

/-- A commit of a batch that reaches the store is in the catalog if its sequence
was free. -/
theorem Worker.TickEffect.batch_arrives (effect : TickEffect config input store w store' w')
    {seen : Observed} {batch : Batch} (stands : w.tick = .commitData seen batch snapshot)
    (arrived : input.reply ≠ .failed) (free : store.Free snapshot.sequence) :
    store' = store.commit snapshot := by
  cases effect with
  | commitDataFails _ reply => exact absurd reply arrived
  | commitDataLost stands' =>
    rw [stands] at stands'
    cases stands'
    rfl
  | commitDataConflict stands' _ taken =>
    rw [stands] at stands'
    cases stands'
    exact absurd taken free
  | commitData stands' =>
    rw [stands] at stands'
    cases stands'
    rfl
  | _ => simp_all

theorem StoreChange.grows (change : StoreChange input w store store') (fresh : store.Fresh) :
    store.Grows store' ∧ store'.Fresh := by
  cases change with
  | same => exact ⟨.refl store, fresh⟩
  | puffin file => exact ⟨ObjectStore.grows_putPuffin fresh file, fresh.putPuffin file⟩
  | data rows => exact ⟨ObjectStore.grows_putData fresh rows, fresh.putData rows⟩
  | merge | batch => exact ⟨ObjectStore.grows_commit store _, fresh.commit _⟩

/-- Whatever a process does, the store only grows. -/
theorem ProcessEffect.grows (effect : ProcessEffect log config store process act store' process')
    (fresh : store.Fresh) : store.Grows store' ∧ store'.Fresh := by
  cases effect with
  | ticks effect => exact effect.storeChange.grows fresh
  | _ => exact ⟨.refl store, fresh⟩

end Blaze
