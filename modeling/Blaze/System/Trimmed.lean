import Blaze.System.CommitNames
import Blaze.System.Retained

/-!
# A table from which objects are deleted

The only writer of a table reads the newest snapshot and the objects that one
names, and nothing else.  As long as these are there, deletions make no difference
to it: its steps on what is left of the table are its steps on the table with
everything that was ever written.
-/

namespace Blaze

open SnapshotCatalog

variable {snapshot : SnapshotMeta}

/-- What is left of a table, next to the table with everything that was ever
written.  The newest snapshot is still there. -/
structure Trimmed (whole left : ObjectStore) : Prop where
  puffins : ∀ (id : Nat) (file : PuffinBase), left.puffins[id]? = some file →
    whole.puffins[id]? = some file
  data : ∀ (id : Nat) (rows : List Row), left.data[id]? = some rows →
    whole.data[id]? = some rows
  snapshots : ∀ (k : Nat) (snapshot : SnapshotMeta), left.snapshots[k]? = some snapshot →
    whole.snapshots[k]? = some snapshot
  newest : left.snapshots[whole.count]? = whole.snapshots[whole.count]?
  nextUuid : left.nextUuid = whole.nextUuid

/-- Both tables change in the same way. -/
inductive SameChange (input : TickInput) (w : Worker) (whole left : ObjectStore) :
    ObjectStore → ObjectStore → Prop
  | same : SameChange input w whole left whole left
  | puffin (file : PuffinBase) :
      SameChange input w whole left (whole.putPuffin file) (left.putPuffin file)
  | data (rows : List Row) :
      SameChange input w whole left (whole.putData rows) (left.putData rows)
  | commit {snapshot : SnapshotMeta} (stands : w.tick.committing? = some snapshot)
      (arrived : input.reply ≠ .failed) :
      SameChange input w whole left (whole.commit snapshot) (left.commit snapshot)

section Simulation

variable {log : Log} {bound : Set EdgeEvent} {config : FlusherConfig} {input : TickInput}
  {whole left left' : ObjectStore} {w w' : Worker} {process process' : Process} {act : Act}

theorem Trimmed.refl (store : ObjectStore) : Trimmed store store :=
  ⟨fun _ _ stored => stored, fun _ _ stored => stored, fun _ _ stored => stored, rfl, rfl⟩

theorem Trimmed.mem_snapshots (trimmed : Trimmed whole left) {k : Nat}
    (member : k ∈ left.snapshots) : k ∈ whole.snapshots :=
  KeyedMap.mem_of_holds trimmed.snapshots member

/-- Reading the newest snapshot goes the same way in both tables. -/
theorem Trimmed.latest (trimmed : Trimmed whole left) (ok : whole.InOrder) {cachedSeq : Nat}
    (observed : cachedSeq = 0 ∨ cachedSeq = whole.count) :
    SnapshotCatalog.latest left.snapshots cachedSeq =
      SnapshotCatalog.latest whole.snapshots cachedSeq := by
  have below : cachedSeq ≤ whole.count := by
    rcases observed with rfl | rfl
    · exact Nat.zero_le _
    · exact le_rfl
  rw [latest_of_dense ok.dense below, ← trimmed.newest]
  apply latest_of_newest _ _ observed
  · intro some
    have present := (ok.dense whole.count).mpr ⟨Nat.one_le_iff_ne_zero.mpr some, le_rfl⟩
    rw [Std.TreeMap.mem_iff_isSome_getElem?, trimmed.newest]
    rw [Std.TreeMap.mem_iff_isSome_getElem?] at present
    exact present
  · intro k member
    rcases (ok.dense k).mp (trimmed.mem_snapshots member) with ⟨positive, low⟩
    exact ⟨Nat.one_le_iff_ne_zero.mp positive, low⟩

/-- The files of the newest snapshot are fetched alike. -/
theorem Trimmed.fetchRuns (trimmed : Trimmed whole left) {newest : SnapshotMeta}
    (stored : whole.snapshots[whole.count]? = some newest)
    (present : ∀ key, whole.NamedByNewest key → left.Has key) :
    fetchRuns left newest.assembled = fetchRuns whole newest.assembled := by
  unfold Blaze.fetchRuns
  apply mapM_congr
  intro run listed
  have there : left.Has ⟨.puffin, run.path.uuid⟩ := present _ ⟨newest, stored,
    SnapshotMeta.mem_objects_of_assembled (List.mem_map.mpr ⟨run, listed, rfl⟩)⟩
  change run.path.uuid ∈ left.puffins at there
  have file := Std.TreeMap.getElem?_eq_some_getElem there
  unfold fetchRun
  rw [file, trimmed.puffins _ _ file]

/-- A cold start finds the same state in both tables. -/
theorem Trimmed.loadState (trimmed : Trimmed whole left) (ok : whole.InOrder)
    (assembles : whole.Assembles) (disk : config.diskMode = true)
    (present : ∀ key, whole.NamedByNewest key → left.Has key) :
    loadState config left = loadState config whole := by
  unfold Blaze.loadState
  rw [trimmed.latest ok (Or.inl rfl), latest_of_dense ok.dense (Nat.zero_le _)]
  cases newest : whole.snapshots[whole.count]? with
  | none => rfl
  | some snapshot =>
    have opened : openBase left snapshot = openBase whole snapshot := by
      unfold openBase
      rw [(assembles _ snapshot newest).committedRuns, (assembles _ snapshot newest).committedRuns]
      simp only [bind, Except.bind]
      rw [trimmed.fetchRuns newest present]
    simp only [bind, Except.bind, disk, if_true, opened]

theorem Trimmed.freshPath (trimmed : Trimmed whole left) (sequence : Nat) :
    whole.freshPath sequence = left.freshPath sequence := by
  unfold ObjectStore.freshPath
  rw [trimmed.nextUuid]

/-- Both steps leave the same worker and change their tables in the same way. -/
def SameStep (input : TickInput) (w : Worker) (whole left : ObjectStore)
    (one other : ObjectStore × Worker) : Prop :=
  one.2 = other.2 ∧ SameChange input w whole left one.1 other.1

theorem sameStep_read (reads : SnapshotCatalog.latest left.snapshots w.cachedSeq =
      SnapshotCatalog.latest whole.snapshots w.cachedSeq) :
    SameStep input w whole left (w.readStep config input whole) (w.readStep config input left) := by
  unfold Worker.readStep
  cases input.reply with
  | done =>
    rw [reads]
    dsimp only
    split <;> exact ⟨rfl, .same⟩
  | failed | lost => exact ⟨rfl, .same⟩

section Trimmed

variable (trimmed : Trimmed whole left)

include trimmed

theorem Trimmed.sameStep_putMerge (seen : Observed) (again : Bool) (publication : Publication) :
    SameStep input w whole left (w.putMergeStep config input whole seen again publication)
      (w.putMergeStep config input left seen again publication) := by
  unfold Worker.putMergeStep
  rw [trimmed.freshPath]
  cases input.reply with
  | done | lost => exact ⟨rfl, .puffin _⟩
  | failed => exact ⟨rfl, .same⟩

theorem Trimmed.sameStep_putData (seen : Observed) (batch : Batch) :
    SameStep input w whole left (w.putDataStep config input whole seen batch)
      (w.putDataStep config input left seen batch) := by
  unfold Worker.putDataStep
  rw [trimmed.freshPath]
  cases input.reply with
  | done =>
    dsimp only
    split <;> exact ⟨rfl, .data _⟩
  | failed => exact ⟨rfl, .same⟩
  | lost => exact ⟨rfl, .data _⟩

theorem Trimmed.sameStep_putPuffin (seen : Observed) (batch : Batch) (dataPath : ObjectPath)
    (file : PuffinBase) (layer : Layer) :
    SameStep input w whole left (w.putPuffinStep config input whole seen batch dataPath file layer)
      (w.putPuffinStep config input left seen batch dataPath file layer) := by
  unfold Worker.putPuffinStep
  rw [trimmed.freshPath]
  cases input.reply with
  | done =>
    dsimp only
    split <;> exact ⟨rfl, .puffin _⟩
  | failed => exact ⟨rfl, .same⟩
  | lost => exact ⟨rfl, .puffin _⟩

/-- A sequence that was never used is free in what is left, too. -/
theorem Trimmed.commit_eq (free : whole.Free snapshot.sequence) :
    (SnapshotCatalog.commit whole.snapshots snapshot).2 = .committed ∧
      (SnapshotCatalog.commit left.snapshots snapshot).2 = .committed := by
  rw [commit_of_not_mem free, commit_of_not_mem fun member => free (trimmed.mem_snapshots member)]
  exact ⟨rfl, rfl⟩

theorem Trimmed.sameStep_commitMerge (free : whole.Free snapshot.sequence)
    (stands : w.tick.committing? = some snapshot) (seen : Observed) (again : Bool)
    (publication : Publication) :
    SameStep input w whole left
      (w.commitMergeStep config input whole seen again publication snapshot)
      (w.commitMergeStep config input left seen again publication snapshot) := by
  obtain ⟨committed, committed'⟩ := trimmed.commit_eq free
  unfold Worker.commitMergeStep
  rw [committed, committed']
  cases reply : input.reply with
  | done | lost => exact ⟨rfl, .commit stands (by rw [reply]; decide)⟩
  | failed => exact ⟨rfl, .same⟩

theorem Trimmed.sameStep_commitData (free : whole.Free snapshot.sequence)
    (stands : w.tick.committing? = some snapshot) (batch : Batch) :
    SameStep input w whole left (w.commitDataStep input whole batch snapshot)
      (w.commitDataStep input left batch snapshot) := by
  obtain ⟨committed, committed'⟩ := trimmed.commit_eq free
  unfold Worker.commitDataStep
  rw [committed, committed']
  cases reply : input.reply with
  | done | lost => exact ⟨rfl, .commit stands (by rw [reply]; decide)⟩
  | failed => exact ⟨rfl, .same⟩

end Trimmed

theorem SameStep.exists_step {one other : ObjectStore × Worker}
    (same : SameStep input w whole left one other) (stepped : some other = some (left', w')) :
    ∃ whole', some one = some (whole', w') ∧ SameChange input w whole left whole' left' := by
  cases stepped
  exact ⟨one.1, congrArg some (Prod.ext rfl same.1), same.2⟩

/-- A tick of a worker that has observed the newest snapshot goes the same way in
both tables. -/
theorem Trimmed.tickStep (trimmed : Trimmed whole left)
    (reads : SnapshotCatalog.latest left.snapshots w.cachedSeq =
      SnapshotCatalog.latest whole.snapshots w.cachedSeq)
    (free : ∀ snapshot, w.tick.committing? = some snapshot →
      whole.Free snapshot.sequence)
    (stepped : w.tickStep config input left = some (left', w')) :
    ∃ whole', w.tickStep config input whole = some (whole', w') ∧
      SameChange input w whole left whole' left' := by
  unfold Worker.tickStep at stepped ⊢
  cases stands : w.tick with
  | idle => rw [stands] at stepped; cases stepped
  | readLatest =>
    rw [stands] at stepped
    exact (sameStep_read reads).exists_step stepped
  | putMerge seen again publication =>
    rw [stands] at stepped
    exact (trimmed.sameStep_putMerge seen again publication).exists_step stepped
  | commitMerge seen again publication snapshot =>
    have commits : w.tick.committing? = some snapshot := by
      rw [stands]
      rfl
    rw [stands] at stepped
    exact (trimmed.sameStep_commitMerge (free snapshot commits) commits seen again
      publication).exists_step stepped
  | awaitMerge seen =>
    rw [stands] at stepped
    dsimp only at stepped ⊢
    split at stepped
    · next finished =>
        cases stepped
        rw [if_pos finished]
        exact ⟨_, rfl, .same⟩
    · cases stepped
  | putData seen batch =>
    rw [stands] at stepped
    exact (trimmed.sameStep_putData seen batch).exists_step stepped
  | putPuffin seen batch dataPath file layer =>
    rw [stands] at stepped
    exact (trimmed.sameStep_putPuffin seen batch dataPath file layer).exists_step stepped
  | commitData seen batch snapshot =>
    have commits : w.tick.committing? = some snapshot := by
      rw [stands]
      rfl
    rw [stands] at stepped
    exact (trimmed.sameStep_commitData (free snapshot commits) commits batch).exists_step stepped

theorem ObjectStore.InOrder.free_next (ok : whole.InOrder) : whole.Free (whole.count + 1) := by
  intro member
  exact Nat.not_succ_le_self _ ((ok.dense _).mp member).2

/-- What the only writer is about to commit becomes the newest snapshot. -/
theorem Worker.Alone.appended (ok : whole.InOrder) (order : w.InOrder whole) (alone : w.Alone whole)
    (stands : w.tick.committing? = some snapshot) : whole.Appended snapshot := by
  have tick := order.tick
  cases standing : w.tick with
  | commitMerge seen again publication committing =>
    rw [standing] at stands tick
    cases stands
    apply (Worker.InOrder.merged ok order standing _).1
    rw [tick.2.1, tick.1.next, alone.cached]
    exact ok.free_next
  | commitData seen batch committing =>
    rw [standing] at stands tick
    cases stands
    apply (Worker.InOrder.committed ok order standing _).1
    rw [tick.2.2.1, tick.1.next, alone.cached]
    exact ok.free_next
  | _ =>
    rw [standing] at stands
    cases stands

/-- Every step of the only writer goes the same way in both tables. -/
theorem Trimmed.step (trimmed : Trimmed whole left) (ok : whole.InOrder)
    (assembles : whole.Assembles) (disk : config.diskMode = true)
    (present : ∀ key, whole.NamedByNewest key → left.Has key) (order : process.InOrder whole)
    (alone : process.Alone whole)
    (stepped : process.step log config left act = some (left', process')) :
    ∃ whole', process.step log config whole act = some (whole', process') ∧
      (whole' = whole ∧ left' = left ∨ ∃ w input, process = .running w ∧ act = .tick input ∧
        SameChange input w whole left whole' left') := by
  unfold Process.step at stepped ⊢
  split at stepped
  · rw [trimmed.loadState ok assembles disk present] at stepped
    cases found : Blaze.loadState config whole with
    | error text =>
      simp only [found] at stepped ⊢
      cases stepped
      exact ⟨_, rfl, Or.inl ⟨rfl, rfl⟩⟩
    | ok boot =>
      simp only [found] at stepped ⊢
      cases stepped
      exact ⟨_, rfl, Or.inl ⟨rfl, rfl⟩⟩
  · next boot =>
      have same : boot.checkStream config left = boot.checkStream config whole := by
        unfold Boot.checkStream
        rw [trimmed.latest ok (Or.inr alone.1)]
      split at stepped
      · cases stepped
      · next unchecked =>
          cases stepped
          rw [if_neg unchecked, same]
          exact ⟨_, rfl, Or.inl ⟨rfl, rfl⟩⟩
  · next boot =>
      have same : boot.seek left = boot.seek whole := by
        unfold Boot.seek
        rw [trimmed.latest ok (Or.inr alone.1)]
      split at stepped
      · next checked =>
          cases stepped
          rw [if_pos checked, same]
          exact ⟨_, rfl, Or.inl ⟨rfl, rfl⟩⟩
      · cases stepped
  iterate 4
    · rcases Option.map_eq_some_iff.mp stepped with ⟨w', done, ⟨⟩⟩
      rw [done]
      exact ⟨_, rfl, Or.inl ⟨rfl, rfl⟩⟩
  · next w input =>
      rcases Option.map_eq_some_iff.mp stepped with ⟨⟨store, w'⟩, done, ⟨⟩⟩
      have free : ∀ snapshot, w.tick.committing? = some snapshot →
          whole.Free snapshot.sequence := by
        intro snapshot stands
        rw [(Worker.Alone.appended ok order alone stands).sequence]
        exact ok.free_next
      rcases trimmed.tickStep (trimmed.latest ok (Or.inr alone.cached)) free done with
        ⟨whole', same, change⟩
      rw [same]
      exact ⟨whole', rfl, Or.inr ⟨w, input, rfl, rfl, change⟩⟩
  · cases stepped
    exact ⟨_, rfl, Or.inl ⟨rfl, rfl⟩⟩
  · cases stepped
    exact ⟨_, rfl, Or.inl ⟨rfl, rfl⟩⟩
  · cases stepped

/-- The same insertion into a map and a part of it. -/
theorem getElem?_insert_mono {δ : Type} {all part : Std.TreeMap Nat δ}
    (subset : ∀ (id : Nat) (value : δ), part[id]? = some value → all[id]? = some value)
    {key id : Nat} {new value : δ} (stored : (part.insert key new)[id]? = some value) :
    (all.insert key new)[id]? = some value := by
  rw [Std.TreeMap.getElem?_insert] at stored ⊢
  by_cases same : compare key id = .eq
  · rw [if_pos same] at stored ⊢
    exact stored
  · rw [if_neg same] at stored ⊢
    exact subset id value stored

/-- What is left after the same change. -/
theorem SameChange.trimmed {whole' : ObjectStore}
    (change : SameChange input w whole left whole' left') (trimmed : Trimmed whole left)
    (appended : ∀ snapshot, w.tick.committing? = some snapshot → whole.Appended snapshot) :
    Trimmed whole' left' := by
  cases change with
  | same => exact trimmed
  | puffin file =>
    refine ⟨fun id held stored => ?_, trimmed.data, trimmed.snapshots, trimmed.newest, ?_⟩
    · change (left.puffins.insert left.nextUuid file)[id]? = some held at stored
      rw [trimmed.nextUuid] at stored
      exact getElem?_insert_mono trimmed.puffins stored
    · exact congrArg (· + 1) trimmed.nextUuid
  | data rows =>
    refine ⟨trimmed.puffins, fun id held stored => ?_, trimmed.snapshots, trimmed.newest, ?_⟩
    · change (left.data.insert left.nextUuid rows)[id]? = some held at stored
      rw [trimmed.nextUuid] at stored
      exact getElem?_insert_mono trimmed.data stored
    · exact congrArg (· + 1) trimmed.nextUuid
  | @commit snapshot stands arrived =>
    have new := appended snapshot stands
    have free : snapshot.sequence ∉ whole.snapshots := by
      intro member
      have grown := new.count
      rw [ObjectStore.commit_of_mem member] at grown
      exact Nat.succ_ne_self _ grown.symm
    have free' : snapshot.sequence ∉ left.snapshots :=
      fun member => free (trimmed.mem_snapshots member)
    have kept : (left.commit snapshot).snapshots =
        left.snapshots.insert snapshot.sequence snapshot := by
      unfold ObjectStore.commit
      rw [commit_of_not_mem free']
    refine ⟨trimmed.puffins, trimmed.data, fun k held stored => ?_, ?_, trimmed.nextUuid⟩
    · change (SnapshotCatalog.commit whole.snapshots snapshot).1[k]? = some held
      rw [kept] at stored
      rw [commit_of_not_mem free]
      exact getElem?_insert_mono trimmed.snapshots stored
    · rw [new.count, new.stored, kept, ← new.sequence]
      exact Std.TreeMap.getElem?_insert_self

end Simulation

/-! ## Objects that exist -/

section Objects

variable {store store' whole left : ObjectStore} {key : ObjectKey}

theorem ObjectStore.Has.grows (has : store.Has key) (grows : store.Grows store') :
    store'.Has key := by
  unfold Has at *
  cases folder : key.folder with
  | puffin =>
    simp only [folder] at has ⊢
    exact KeyedMap.mem_of_holds grows.puffins has
  | data =>
    simp only [folder] at has ⊢
    exact KeyedMap.mem_of_holds grows.data has

theorem ObjectStore.Has.keeps (has : store.Has key) (keeps : store.Keeps store' key) :
    store'.Has key := by
  unfold Has at *
  unfold Keeps at keeps
  cases folder : key.folder <;> simp only [folder] at has keeps ⊢ <;>
    rw [Std.TreeMap.mem_iff_isSome_getElem?] at has ⊢ <;> rw [keeps] <;> exact has

/-- Objects that exist have used up their identifier. -/
theorem ObjectStore.Fresh.lt_nextUuid (fresh : store.Fresh) (has : store.Has key) :
    key.uuid < store.nextUuid := by
  unfold Has at has
  cases folder : key.folder with
  | puffin =>
    simp only [folder] at has
    exact fresh.puffins _ has
  | data =>
    simp only [folder] at has
    exact fresh.data _ has

theorem Trimmed.fresh (trimmed : Trimmed whole left) (fresh : whole.Fresh) : left.Fresh := by
  constructor
  · intro id member
    rw [trimmed.nextUuid]
    exact fresh.puffins _ (KeyedMap.mem_of_holds trimmed.puffins member)
  · intro id member
    rw [trimmed.nextUuid]
    exact fresh.data _ (KeyedMap.mem_of_holds trimmed.data member)

end Objects

end Blaze
