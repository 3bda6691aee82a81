import Blaze.System.Trimmed

/-!
# Sweeping under a writer

A sweep runs between the steps of the only writer of a table.  It decides from the
metadata it listed, which goes stale while the writer commits.  What it deletes is
never part of the newest snapshot: the snapshot that was newest when it listed the
catalog keeps its objects alive, and whatever the writer has uploaded since is
inside the grace period when it is committed.
-/

namespace Blaze

open SnapshotCatalog

variable {w w' : Worker} {store whole whole' store' : ObjectStore} {key : ObjectKey}
  {bucket bucket' : Bucket} {graceMs : Nat} {table : Table} {log : Log} {config : FlusherConfig}
  {snapshot : SnapshotMeta} {act : Act} {plan : Plan}

/-! ## A writer, a sweep and a clock -/

/-- The store stamps with its clock what it did not hold before. -/
def Bucket.write (bucket : Bucket) (clockMs : Int) (store : ObjectStore) : Bucket where
  store := store
  objectMeta key :=
    if key.uuid < bucket.store.nextUuid then bucket.objectMeta key
    else { bucket.objectMeta key with lastModifiedMs := clockMs }
  snapshotModifiedMs k :=
    if k ∈ store.snapshots ∧ k ∉ bucket.store.snapshots then clockMs
    else bucket.snapshotModifiedMs k

/-- A table with its writer, the sweep at work on it, the time, and the snapshot
that was committed last. -/
structure Table where
  process : Process
  bucket : Bucket
  sweep : Sweep
  clockMs : Int
  lastCommitted : Option SnapshotMeta

/-- The writer takes a step, a sweep starts or gets a reply, or time passes. -/
inductive TableAct where
  | work (act : Act)
  | startSweep (policy : RetentionPolicy)
  | sweep (reply : Reply)
  | wait (ms : Nat)

/-- The action may commit the snapshot a tick stands at. -/
def Act.commits : Act → Bool
  | .tick input => input.reply == .done
  | _ => false

namespace Table

/-- An empty table. -/
def init (clockMs : Int) : Table where
  process := .offline
  bucket := ⟨ObjectStore.empty, fun _ => ⟨0, 0⟩, fun _ => 0⟩
  sweep := .returned (.ok Reclaimed.default)
  clockMs := clockMs
  lastCommitted := none

/-- The snapshot the writer is about to commit. -/
def committing? (table : Table) : Option SnapshotMeta :=
  table.process.worker?.bind fun w => w.tick.committing?

/-- The snapshot committed last, when the store becomes `store`. -/
def committed (table : Table) (store : ObjectStore) : Option SnapshotMeta :=
  match table.committing? with
  | none => table.lastCommitted
  | some snapshot =>
      if snapshot.sequence ∈ store.snapshots ∧
          snapshot.sequence ∉ table.bucket.store.snapshots then
        some snapshot
      else
        table.lastCommitted

/-- The table after a step of the writer. -/
def worked (table : Table) (store : ObjectStore) (process : Process) : Table :=
  { table with
    process
    bucket := table.bucket.write table.clockMs store
    lastCommitted := table.committed store }

def step (log : Log) (config : FlusherConfig) (table : Table) : TableAct → Option Table
  | .work act =>
      (table.process.step log config table.bucket.store act).map fun next =>
        table.worked next.1 next.2
  | .startSweep policy =>
      match table.sweep with
      | .returned _ => some { table with sweep := .listSnapshots policy table.clockMs }
      | _ => none
  | .sweep reply =>
      (table.sweep.step table.bucket reply).map fun next =>
        { table with sweep := next.1, bucket := next.2 }
  | .wait ms => some { table with clockMs := table.clockMs + ms }

def run (log : Log) (config : FlusherConfig) (clockMs : Int) (acts : List TableAct) :
    Option Table :=
  Execution.run (step log config) acts (init clockMs)

/-- Whatever was uploaded for a snapshot is committed less than `graceMs` later, and
sweeps grant that much time. -/
def InTime (graceMs : Nat) (table : Table) : TableAct → Prop
  | .work act => OnlyWriter 0 ⟨0, act⟩ ∧
      (act.commits = true → ∀ snapshot ∈ table.committing?, ∀ key ∈ snapshot.published,
        table.clockMs < (table.bucket.objectMeta key).lastModifiedMs + graceMs)
  | .startSweep policy => policy.graceMs = graceMs ∧ InI64 (table.clockMs - graceMs)
  | _ => True

instance (graceMs : Nat) (table : Table) (act : TableAct) :
    Decidable (table.InTime graceMs act) := by
  unfold InTime
  split <;> infer_instance

end Table

/-! ## Objects in flight -/

/-- What a tick has uploaded for a commit that is still to come. -/
def TickState.inFlight : TickState → List ObjectKey
  | .commitMerge _ _ _ snapshot => snapshot.published
  | .putPuffin _ _ dataPath _ _ => [⟨.data, dataPath.uuid⟩]
  | .commitData _ _ snapshot => snapshot.published
  | _ => []

theorem TickState.inFlight_of_committing {tick : TickState}
    (stands : tick.committing? = some snapshot) : tick.inFlight = snapshot.published := by
  cases tick <;> cases stands <;> rfl

theorem Worker.Proceeds.inFlight {seen : Observed} (proceeds : Proceeds w seen w') :
    w'.tick.inFlight = [] := by
  cases proceeds <;> rfl

/-- A step of a tick puts at most the object it uploads in flight. -/
theorem Worker.TickEffect.inFlight {input : TickInput}
    (effect : TickEffect config input store w store' w') (member : key ∈ w'.tick.inFlight) :
    key ∈ w.tick.inFlight ∨ store'.Has key := by
  cases effect with
  | leads stands reply found leader proceeds =>
    rw [proceeds.inFlight] at member
    cases member
  | undescribable stands reply proceeds =>
    rw [proceeds.inFlight] at member
    cases member
  | commitMergeConflict stands reply taken proceeds =>
    rw [proceeds.inFlight] at member
    cases member
  | commitMerge stands reply works free resolved proceeds =>
    rw [proceeds.inFlight] at member
    cases member
  | awaits stands proceeds =>
    rw [proceeds.inFlight] at member
    cases member
  | putMerge stands reply described =>
    right
    cases List.mem_singleton.mp member
    exact Std.TreeMap.mem_insert_self
  | putData stands reply folded =>
    right
    cases List.mem_singleton.mp member
    exact Std.TreeMap.mem_insert_self
  | putPuffin stands reply checked =>
    rcases List.mem_cons.mp member with rfl | dataFile
    · right
      exact Std.TreeMap.mem_insert_self
    · left
      rw [stands]
      exact dataFile
  | _ => cases member

/-- Nothing else puts objects in flight. -/
theorem ProcessEffect.inFlight {log : Log} {process process' : Process}
    (effect : ProcessEffect log config store process act store' process')
    (runs : process'.worker? = some w') (member : key ∈ w'.tick.inFlight) :
    (∃ w, process.worker? = some w ∧ key ∈ w.tick.inFlight) ∨ store'.Has key := by
  cases effect with
  | @checks boot =>
    rw [boot.worker?_checkStream] at runs
    cases runs
  | @seeks boot =>
    unfold Boot.seek at runs
    dsimp only at runs
    split at runs <;> cases runs
    cases member
  | applies | appends | finishes =>
    cases runs
    exact Or.inl ⟨_, rfl, member⟩
  | starts =>
    cases runs
    cases member
  | ticks effect =>
    cases runs
    rcases effect.inFlight member with before | has
    · exact Or.inl ⟨_, rfl, before⟩
    · exact Or.inr has
  | _ => cases runs

/-- The objects a sweep is about to delete. -/
def Sweep.doomed : Sweep → List ObjectKey
  | .deleteObject _ _ key doomed _ => key :: doomed
  | _ => []

theorem ObjectStore.has_of_mem_list {folder : Folder} (member : key ∈ store.list folder) :
    store.Has key := by
  cases folder with
  | puffin =>
    rcases List.mem_map.mp member with ⟨uuid, listed, rfl⟩
    exact Std.TreeMap.mem_keys.mp listed
  | data =>
    rcases List.mem_map.mp member with ⟨uuid, listed, rfl⟩
    exact Std.TreeMap.mem_keys.mp listed

namespace Sweep

variable {sweep sweep' : Sweep} {reply : Reply}

theorem doomed_nextSnapshot (plan : Plan) (unseen : List Nat) (out : Reclaimed) :
    (nextSnapshot plan unseen out).doomed = [] := by
  cases unseen <;> rfl

theorem doomed_nextObject (plan : Plan) (folder : Folder) (doomed : List ObjectKey)
    (out : Reclaimed) : (nextObject plan folder doomed out).doomed = doomed := by
  cases doomed with
  | cons key doomed => rfl
  | nil =>
    cases folder with
    | puffin => rfl
    | data => exact doomed_nextSnapshot _ _ _

theorem doomed_nextRead (policy : RetentionPolicy) (nowMs : Int) (all : List Nat)
    (metas : List SnapshotMeta) (unread : List Nat) :
    (nextRead policy nowMs all metas unread).doomed = [] := by
  cases unread <;> rfl

/-- A sweep is about to delete only what it has seen in a listing. -/
theorem doomed_step (stepped : sweep.step bucket reply = some (sweep', bucket'))
    (member : key ∈ sweep'.doomed) : key ∈ sweep.doomed ∨ bucket.store.Has key := by
  cases sweep with
  | returned => cases stepped
  | listSnapshots policy nowMs =>
    cases reply <;> cases stepped
    · unfold listed at member
      split at member
      · cases member
      · rw [doomed_nextRead] at member
        cases member
    · cases member
    · cases member
  | readSnapshot policy nowMs all metas sequence unread =>
    simp only [Sweep.step] at stepped
    split at stepped <;> cases stepped
    · rw [doomed_nextRead] at member
      cases member
    · cases member
  | listObjects plan folder out =>
    cases reply <;> cases stepped
    · unfold listedObjects at member
      rw [doomed_nextObject] at member
      right
      exact ObjectStore.has_of_mem_list (List.mem_of_mem_filter (List.mem_of_mem_filter member))
    · cases member
    · cases member
  | deleteObject plan folder next doomed out =>
    left
    cases reply <;> cases stepped <;> rw [doomed_nextObject] at member <;>
      exact List.mem_cons_of_mem next member
  | headSnapshot plan sequence unseen out =>
    cases reply <;> cases stepped
    · unfold headed at member
      split at member
      · split at member
        · rw [doomed_nextSnapshot] at member
          cases member
        · cases member
      · rw [doomed_nextSnapshot] at member
        cases member
    · rw [doomed_nextSnapshot] at member
      cases member
    · rw [doomed_nextSnapshot] at member
      cases member
  | deleteSnapshot plan sequence unseen out =>
    cases reply <;> cases stepped <;> rw [doomed_nextSnapshot] at member <;> cases member

end Sweep

/-! ## The newest snapshot is spared -/

/-- The sweep has listed the catalog when `n` was the newest sequence.  What the
newest snapshot names now was named by that one, or is too young. -/
structure SweepsFrom (graceMs : Nat) (whole : ObjectStore) (table : Table) (found : Snapshots)
    (policy : RetentionPolicy) (nowMs : Int) (n : Nat) : Prop where
  sound : table.sweep.Sound found policy nowMs table.bucket
  grace : policy.graceMs = graceMs
  fits : InI64 (nowMs - graceMs)
  started : nowMs ≤ table.clockMs
  named : found.Named
  top : ∀ k ∈ found, k ≤ n
  listed : n ≤ whole.count
  spared : ∀ key, whole.NamedByNewest key →
    (∃ newest, found[n]? = some newest ∧ key ∈ newest.objects) ∨
      nowMs - graceMs < (table.bucket.objectMeta key).lastModifiedMs

/-- A sweep that is not at work, has not listed the catalog yet, or has. -/
inductive Sweeping (graceMs : Nat) (whole : ObjectStore) (table : Table) : Prop
  | returned {result : Except String Reclaimed} (stands : table.sweep = .returned result)
  | starts {policy : RetentionPolicy} {nowMs : Int}
      (stands : table.sweep = .listSnapshots policy nowMs) (grace : policy.graceMs = graceMs)
      (fits : InI64 (nowMs - graceMs)) (started : nowMs ≤ table.clockMs)
  | sweeps {found : Snapshots} {policy : RetentionPolicy} {nowMs : Int} {n : Nat}
      (sweeps : SweepsFrom graceMs whole table found policy nowMs n)

/-- The object was uploaded, and is there unless its grace period is over. -/
def Table.Granted (graceMs : Nat) (table : Table) (key : ObjectKey) : Prop :=
  key.uuid < table.bucket.store.nextUuid ∧
    (table.bucket.store.Has key ∨
      (table.bucket.objectMeta key).lastModifiedMs + graceMs ≤ table.clockMs)

/-- What is left of the table contains everything the newest snapshot names. -/
structure Table.Ok (graceMs : Nat) (whole : ObjectStore) (table : Table) : Prop where
  trimmed : Trimmed whole table.bucket.store
  last : table.lastCommitted = whole.snapshots[whole.count]?
  present : ∀ key, whole.NamedByNewest key → table.bucket.store.Has key
  inFlight : ∀ w, table.process.worker? = some w → ∀ key ∈ w.tick.inFlight,
    table.Granted graceMs key
  doomed : ∀ key ∈ table.sweep.doomed, key.uuid < table.bucket.store.nextUuid
  sweeping : Sweeping graceMs whole table

section Sweeps

variable {found : Snapshots} {policy : RetentionPolicy} {nowMs : Int} {n : Nat}

theorem Planned.graceMs_of_fits (planned : Planned found policy nowMs plan)
    (fits : InI64 (nowMs - policy.graceMs)) : plan.graceMs = nowMs - policy.graceMs := by
  rw [planned.graceMs_eq]
  exact RetentionPolicy.before_eq fits

/-- A sweep does not doom what the newest snapshot names. -/
theorem SweepsFrom.not_dooms (sweeps : SweepsFrom graceMs whole table found policy nowMs n)
    (planned : Planned found policy nowMs plan) (named : whole.NamedByNewest key) :
    ¬ plan.Dooms table.bucket.objectMeta key := by
  rintro ⟨dead, old⟩
  rcases sweeps.spared key named with ⟨newest, stored, object⟩ | young
  · apply dead
    apply planned.mem_live sweeps.named stored _ object
    have member := Std.TreeMap.mem_keys.mp (Snapshots.mem_keys_of_getElem? stored)
    exact planned.retains_top member sweeps.top
  · have fits := sweeps.fits
    rw [← sweeps.grace] at fits young
    rw [planned.graceMs_of_fits fits] at old
    exact not_lt.mpr old young

theorem ObjectStore.nextUuid_delete (store : ObjectStore) (key : ObjectKey) :
    (store.delete key).nextUuid = store.nextUuid := by
  unfold delete
  cases key.folder <;> rfl

/-- What a deletion leaves. -/
theorem Trimmed.delete {left : ObjectStore} (trimmed : Trimmed whole left) (key : ObjectKey) :
    Trimmed whole (left.delete key) := by
  have erased : ∀ {δ : Type} {all part : Std.TreeMap Nat δ},
      (∀ (id : Nat) (value : δ), part[id]? = some value → all[id]? = some value) →
      ∀ (id : Nat) (value : δ),
        (part.erase key.uuid)[id]? = some value → all[id]? = some value := by
    intro δ all part subset id value stored
    rw [Std.TreeMap.getElem?_erase] at stored
    split at stored
    · cases stored
    · exact subset id value stored
  unfold ObjectStore.delete
  cases key.folder with
  | puffin =>
    exact ⟨erased trimmed.puffins, trimmed.data, trimmed.snapshots, trimmed.newest,
      trimmed.nextUuid⟩
  | data =>
    exact ⟨trimmed.puffins, erased trimmed.data, trimmed.snapshots, trimmed.newest,
      trimmed.nextUuid⟩

section Swept

variable (swept : Swept found policy nowMs bucket bucket')

include swept

/-- What a step of a sweep leaves of the table. -/
theorem Swept.trimmed (top : ∀ k ∈ found, k ≤ whole.count) (trimmed : Trimmed whole bucket.store) :
    Trimmed whole bucket'.store := by
  have newest := swept.newest top
  have subset : ∀ (k : Nat) (snapshot : SnapshotMeta),
      bucket'.store.snapshots[k]? = some snapshot → bucket.store.snapshots[k]? = some snapshot :=
    fun _ _ stored => swept.snapshots_subset stored
  cases swept with
  | same => exact trimmed
  | object => exact trimmed.delete _
  | snapshot =>
    exact ⟨trimmed.puffins, trimmed.data,
      fun k snapshot stored => trimmed.snapshots k snapshot (subset k snapshot stored),
      newest.trans trimmed.newest, trimmed.nextUuid⟩

theorem Swept.nextUuid : bucket'.store.nextUuid = bucket.store.nextUuid := by
  cases swept with
  | same => rfl
  | object => exact ObjectStore.nextUuid_delete _ _
  | snapshot => rfl

theorem Swept.objectMeta : bucket'.objectMeta = bucket.objectMeta := by
  cases swept <;> rfl

/-- An object that existed is still there, or was doomed. -/
theorem Swept.has_or_dooms (has : bucket.store.Has key) :
    bucket'.store.Has key ∨
      ∃ plan, Planned found policy nowMs plan ∧ plan.Dooms bucket.objectMeta key := by
  cases swept with
  | same => exact Or.inl has
  | @object plan doomedKey planned dooms =>
    by_cases same : key = doomedKey
    · right
      rw [same]
      exact ⟨plan, planned, dooms⟩
    · exact Or.inl (has.keeps (ObjectStore.keeps_delete bucket.store same))
  | snapshot => exact Or.inl has

end Swept

/-- A reply to the sweep. -/
theorem Table.Ok.sweepStep (ok : table.Ok graceMs whole) (fresh : whole.Fresh)
    (inOrder : whole.InOrder) {reply : Reply} {sweep : Sweep}
    (stepped : table.sweep.step table.bucket reply = some (sweep, bucket)) :
    ({ table with sweep, bucket } : Table).Ok graceMs whole := by
  have doomed : ∀ key ∈ sweep.doomed, key.uuid < table.bucket.store.nextUuid := by
    intro key member
    rcases Sweep.doomed_step stepped member with before | listed
    · exact ok.doomed key before
    · exact (ok.trimmed.fresh fresh).lt_nextUuid listed
  cases ok.sweeping with
  | returned stands =>
    rw [stands] at stepped
    cases stepped
  | @starts policy nowMs stands grace fits started =>
    rw [stands] at stepped
    have listing : bucket = table.bucket ∧ ((∃ result, sweep = .returned result) ∨
        sweep.Sound table.bucket.store.snapshots policy nowMs table.bucket) := by
      cases reply <;> cases stepped
      · exact ⟨rfl, Or.inr (Sweep.sound_listed policy nowMs table.bucket)⟩
      · exact ⟨rfl, Or.inl ⟨_, rfl⟩⟩
      · exact ⟨rfl, Or.inl ⟨_, rfl⟩⟩
    rcases listing with ⟨rfl, ⟨result, rfl⟩ | sound⟩
    · exact ⟨ok.trimmed, ok.last, ok.present, ok.inFlight, doomed, .returned rfl⟩
    · refine ⟨ok.trimmed, ok.last, ok.present, ok.inFlight, doomed,
        .sweeps (n := whole.count) ⟨sound, grace, fits, started, fun k snapshot stored => ?_,
          fun k member => ?_, le_rfl, fun key named => Or.inl ?_⟩⟩
      · exact inOrder.named k snapshot (ok.trimmed.snapshots k snapshot stored)
      · exact ((inOrder.dense k).mp (ok.trimmed.mem_snapshots member)).2
      · rcases named with ⟨newest, stored, object⟩
        rw [← ok.trimmed.newest] at stored
        exact ⟨newest, stored, object⟩
  | @sweeps found policy nowMs n sweeps =>
    rcases sweeps.sound.step stepped with ⟨sound, swept⟩
    have top : ∀ k ∈ found, k ≤ whole.count :=
      fun k member => (sweeps.top k member).trans sweeps.listed
    refine ⟨swept.trimmed top ok.trimmed, ok.last, fun key named => ?_,
      fun w runs key member => ?_, fun key member => ?_, .sweeps (n := n) ⟨sound, sweeps.grace,
        sweeps.fits, sweeps.started, sweeps.named, sweeps.top, sweeps.listed,
        fun key named => ?_⟩⟩
    · rcases swept.has_or_dooms (ok.present key named) with has | ⟨plan, planned, dooms⟩
      · exact has
      · exact absurd dooms (sweeps.not_dooms planned named)
    · rcases ok.inFlight w runs key member with ⟨taken, granted⟩
      constructor
      · change key.uuid < bucket.store.nextUuid
        rw [swept.nextUuid]
        exact taken
      · change bucket.store.Has key ∨ (bucket.objectMeta key).lastModifiedMs + graceMs ≤ _
        rw [swept.objectMeta]
        rcases granted with has | expired
        · rcases swept.has_or_dooms has with has | ⟨plan, planned, -, old⟩
          · exact Or.inl has
          · right
            have fits := sweeps.fits
            have started := sweeps.started
            rw [← sweeps.grace] at fits ⊢
            rw [planned.graceMs_of_fits fits] at old
            change (table.bucket.objectMeta key).lastModifiedMs + policy.graceMs ≤ table.clockMs
            omega
        · exact Or.inr expired
    · change key.uuid < bucket.store.nextUuid
      rw [swept.nextUuid]
      exact doomed key member
    · change _ ∨ _ < (bucket.objectMeta key).lastModifiedMs
      rw [swept.objectMeta]
      exact sweeps.spared key named

/-- A sweep starts. -/
theorem Table.Ok.startSweep (ok : table.Ok graceMs whole) (grace : policy.graceMs = graceMs)
    (fits : InI64 (table.clockMs - graceMs)) :
    ({ table with sweep := .listSnapshots policy table.clockMs } : Table).Ok graceMs whole := by
  refine ⟨ok.trimmed, ok.last, ok.present, ok.inFlight, fun key member => ?_,
    .starts rfl grace fits le_rfl⟩
  cases member

/-- Time passes. -/
theorem Table.Ok.wait (ok : table.Ok graceMs whole) (ms : Nat) :
    ({ table with clockMs := table.clockMs + ms } : Table).Ok graceMs whole := by
  refine ⟨ok.trimmed, ok.last, ok.present, fun w runs key member => ?_, ok.doomed, ?_⟩
  · rcases ok.inFlight w runs key member with ⟨taken, has | expired⟩
    · exact ⟨taken, Or.inl has⟩
    · refine ⟨taken, Or.inr ?_⟩
      change (table.bucket.objectMeta key).lastModifiedMs + graceMs ≤ table.clockMs + ms
      omega
  · cases ok.sweeping with
    | returned stands => exact .returned stands
    | @starts policy nowMs stands grace fits started =>
      refine .starts stands grace fits ?_
      change nowMs ≤ table.clockMs + ms
      omega
    | @sweeps found policy nowMs n sweeps =>
      refine .sweeps ⟨sweeps.sound, sweeps.grace, sweeps.fits, ?_, sweeps.named, sweeps.top,
        sweeps.listed, sweeps.spared⟩
      change nowMs ≤ table.clockMs + ms
      have started := sweeps.started
      omega

end Sweeps

/-! ## Steps of the writer -/

section Work

variable {bound : Set EdgeEvent} {left' : ObjectStore} {process' : Process}

theorem Bucket.write_objectMeta (clockMs : Int) (store : ObjectStore)
    (old : key.uuid < bucket.store.nextUuid) :
    (bucket.write clockMs store).objectMeta key = bucket.objectMeta key :=
  if_pos old

theorem Table.committed_of_snapshots_eq
    (same : left'.snapshots = table.bucket.store.snapshots) :
    table.committed left' = table.lastCommitted := by
  unfold Table.committed
  split
  · rfl
  · rw [same, if_neg fun both => both.2 both.1]

/-- Objects in flight stay granted while the store grows. -/
theorem Table.Granted.worked (granted : table.Granted graceMs key)
    (grows : table.bucket.store.Grows left') (more : table.bucket.store.nextUuid ≤ left'.nextUuid) :
    (table.worked left' process').Granted graceMs key := by
  rcases granted with ⟨taken, state⟩
  refine ⟨lt_of_lt_of_le taken more, ?_⟩
  change left'.Has key ∨
    ((table.bucket.write table.clockMs left').objectMeta key).lastModifiedMs + graceMs ≤ _
  rw [Bucket.write_objectMeta table.clockMs left' taken]
  rcases state with has | expired
  · exact Or.inl (has.grows grows)
  · exact Or.inr expired

/-- The sweep bears a step of the writer that leaves alone what the sweep has found
and names only what is spared. -/
theorem Sweeping.worked (ok : table.Ok graceMs whole)
    (grows : table.bucket.store.Grows left') (more : whole.count ≤ whole'.count)
    (later : ∀ k ≤ whole.count, k ∈ left'.snapshots → k ∈ table.bucket.store.snapshots)
    (named : ∀ key, whole'.NamedByNewest key → whole.NamedByNewest key ∨
      table.clockMs < (table.bucket.objectMeta key).lastModifiedMs + graceMs)
    (taken : ∀ key, whole'.NamedByNewest key → key.uuid < table.bucket.store.nextUuid) :
    Sweeping graceMs whole' (table.worked left' process') := by
  cases ok.sweeping with
  | returned stands => exact .returned stands
  | starts stands grace fits started => exact .starts stands grace fits started
  | @sweeps found policy nowMs n sweeps =>
    refine .sweeps (n := n) ⟨?_, sweeps.grace, sweeps.fits, sweeps.started, sweeps.named,
      sweeps.top, sweeps.listed.trans more, fun key newest => ?_⟩
    · apply sweeps.sound.mono
      · exact fun k _ snapshot stored => grows.snapshots k snapshot stored
      · intro plan folder key doomed out stands other member
        apply Bucket.write_objectMeta
        apply ok.doomed
        rw [stands]
        exact member
      · intro k member
        apply if_neg
        rintro ⟨new, absent⟩
        exact absent (later k ((sweeps.top k member).trans sweeps.listed) new)
    · change _ ∨ _ < ((table.bucket.write table.clockMs left').objectMeta key).lastModifiedMs
      rw [Bucket.write_objectMeta _ _ (taken key newest)]
      rcases named key newest with before | young
      · exact sweeps.spared key before
      · right
        have started := sweeps.started
        omega

theorem ObjectStore.namedByNewest_congr (same : whole'.snapshots = whole.snapshots) :
    whole'.NamedByNewest key ↔ whole.NamedByNewest key := by
  unfold NamedByNewest
  rw [(ObjectStore.count_congr same).1, same]

/-- A step of the writer that commits nothing. -/
theorem Table.Ok.uploads (ok : table.Ok graceMs whole) (fresh : whole.Fresh)
    (trimmed : Trimmed whole' left') (grows : table.bucket.store.Grows left')
    (more : table.bucket.store.nextUuid ≤ left'.nextUuid)
    (sameWhole : whole'.snapshots = whole.snapshots)
    (sameLeft : left'.snapshots = table.bucket.store.snapshots)
    (inFlight : ∀ w, process'.worker? = some w → ∀ key ∈ w.tick.inFlight,
      (table.worked left' process').Granted graceMs key) :
    (table.worked left' process').Ok graceMs whole' := by
  have named : ∀ key, whole'.NamedByNewest key → whole.NamedByNewest key :=
    fun _ => (ObjectStore.namedByNewest_congr sameWhole).mp
  refine ⟨trimmed, ?_, fun key newest => ?_, inFlight, fun key member => ?_, ?_⟩
  · change table.committed left' = _
    rw [Table.committed_of_snapshots_eq sameLeft, ok.last,
      (ObjectStore.count_congr sameWhole).1, sameWhole]
  · exact (ok.present key (named key newest)).grows grows
  · exact lt_of_lt_of_le (ok.doomed key member) more
  · apply Sweeping.worked ok grows (ObjectStore.count_congr sameWhole).1.ge
    · intro k _ member
      rwa [sameLeft] at member
    · exact fun key newest => Or.inl (named key newest)
    · intro key newest
      exact (ok.trimmed.fresh fresh).lt_nextUuid (ok.present key (named key newest))

/-- A step of the writer that commits a snapshot in time. -/
theorem Table.Ok.commits (ok : table.Ok graceMs whole) (inOrder : whole.InOrder)
    (runs : table.process.worker? = some w) (stands : w.tick.committing? = some snapshot)
    (appended : whole.Appended snapshot)
    (trimmed : Trimmed (whole.commit snapshot) (table.bucket.store.commit snapshot))
    (names : ∀ key ∈ snapshot.objects, key ∈ snapshot.published ∨ whole.NamedByNewest key)
    (inTime : ∀ key ∈ snapshot.published,
      table.clockMs < (table.bucket.objectMeta key).lastModifiedMs + graceMs)
    (inFlight : ∀ w, process'.worker? = some w → ∀ key ∈ w.tick.inFlight,
      (table.worked (table.bucket.store.commit snapshot) process').Granted graceMs key) :
    (table.worked (table.bucket.store.commit snapshot) process').Ok graceMs
      (whole.commit snapshot) := by
  have grows := ObjectStore.grows_commit table.bucket.store snapshot
  have fresh := ok.trimmed.fresh inOrder.fresh
  have newest : ∀ key, (whole.commit snapshot).NamedByNewest key →
      key ∈ snapshot.published ∨ whole.NamedByNewest key := by
    rintro key ⟨found, stored, object⟩
    rw [appended.count, appended.stored] at stored
    cases stored
    exact names key object
  -- what is committed in time has not been deleted
  have present : ∀ key, (whole.commit snapshot).NamedByNewest key →
      table.bucket.store.Has key := by
    intro key named
    rcases newest key named with published | before
    · have granted := ok.inFlight w runs key (by
        rw [TickState.inFlight_of_committing stands]
        exact published)
      rcases granted.2 with has | expired
      · exact has
      · exact absurd expired (not_le.mpr (inTime key published))
    · exact ok.present key before
  have free : ∀ k ≤ whole.count, k ≠ snapshot.sequence := by
    rintro k below rfl
    rw [appended.sequence] at below
    exact Nat.not_succ_le_self _ below
  have absent : snapshot.sequence ∉ table.bucket.store.snapshots := fun member =>
    free _ ((inOrder.dense _).mp (ok.trimmed.mem_snapshots member)).2 rfl
  have inserted : (table.bucket.store.commit snapshot).snapshots =
      table.bucket.store.snapshots.insert snapshot.sequence snapshot := by
    unfold ObjectStore.commit
    rw [commit_of_not_mem absent]
  refine ⟨trimmed, ?_, fun key named => (present key named).grows grows, inFlight,
    fun key member => ok.doomed key member, ?_⟩
  · have committing : table.committing? = some snapshot := by
      unfold Table.committing?
      rw [runs]
      exact stands
    change table.committed (table.bucket.store.commit snapshot) = _
    unfold Table.committed
    rw [committing, appended.count, appended.stored]
    apply if_pos
    refine ⟨?_, absent⟩
    rw [inserted]
    exact Std.TreeMap.mem_insert_self
  · apply Sweeping.worked ok grows
    · rw [appended.count]
      exact Nat.le_succ _
    · intro k below member
      rw [inserted, Std.TreeMap.mem_insert, Std.LawfulEqCmp.compare_eq_iff_eq] at member
      rcases member with same | old
      · exact absurd same.symm (free k below)
      · exact old
    · intro key named
      rcases newest key named with published | before
      · exact Or.inr (inTime key published)
      · exact Or.inl before
    · exact fun key named => fresh.lt_nextUuid (present key named)

/-- A step of the writer, taken with the table that nothing is deleted from. -/
theorem Table.Ok.work {s : System} (routed : s.Routed log bound fun _ => config) (alone : s.Alone 0)
    (disk : config.diskMode = true) (same : s.process 0 = table.process)
    (ok : table.Ok graceMs s.store) (inTime : table.InTime graceMs (.work act))
    (stepped : table.process.step log config table.bucket.store act = some (left', process')) :
    ∃ t, System.step log (fun _ => config) s ⟨0, act⟩ = some t ∧ t.process 0 = process' ∧
      (table.worked left' process').Ok graceMs t.store := by
  rcases routed with ⟨⟨ordered, runs⟩, -, holds⟩
  have order := ordered.own 0
  have runsOk := runs.own 0
  have content := holds.own 0
  change (s.process 0).Alone s.store at alone
  rw [same] at order runsOk content alone
  have fresh := ok.trimmed.fresh ordered.shared.fresh
  have effect := Process.step_effect stepped
  rcases effect.grows fresh with ⟨grows, fresh'⟩
  rcases ok.trimmed.step ordered.shared runs.shared disk ok.present order alone stepped with
    ⟨whole', taken, change⟩
  have more : table.bucket.store.nextUuid ≤ left'.nextUuid := by
    rcases change with ⟨-, rfl⟩ | ⟨w, input, -, -, change⟩
    · exact le_rfl
    · cases change with
      | same => exact le_rfl
      | puffin | data => exact Nat.le_succ _
      | commit => exact le_rfl
  have inFlight : ∀ w, process'.worker? = some w → ∀ key ∈ w.tick.inFlight,
      (table.worked left' process').Granted graceMs key := by
    intro w' runs' key member
    rcases effect.inFlight runs' member with ⟨w, running, before⟩ | has
    · exact (ok.inFlight w running key before).worked grows more
    · exact ⟨fresh'.lt_nextUuid has, Or.inl has⟩
  refine ⟨s.update 0 whole' process', ?_, Interleaving.update_process_self _ _ _, ?_⟩
  · apply Interleaving.step_eq_some_iff.mpr
    refine ⟨whole', process', ?_, rfl⟩
    rw [same]
    exact taken
  · rw [Interleaving.update_store]
    rcases change with ⟨rfl, rfl⟩ | ⟨w, input, running, rfl, change⟩
    · exact ok.uploads ordered.shared.fresh ok.trimmed grows more rfl rfl inFlight
    · rw [running] at order runsOk content alone
      have appended : ∀ snapshot, w.tick.committing? = some snapshot →
          s.store.Appended snapshot :=
        fun snapshot stands => Worker.Alone.appended ordered.shared order alone stands
      have trimmed := change.trimmed ok.trimmed appended
      cases change with
      | @commit snapshot stands arrived =>
        have workers : table.process.worker? = some w := by rw [running]; rfl
        refine ok.commits ordered.shared workers stands (appended snapshot stands) trimmed
          (fun key object => ?_) ?_ inFlight
        · apply Worker.Alone.commit_names ordered.shared order runs.shared runsOk content alone
            stands _ object
          rw [(appended snapshot stands).sequence]
          exact ordered.shared.free_next
        · rcases inTime with ⟨⟨-, notLost, -⟩, inTime⟩
          have done : input.reply = .done := by
            cases reply : input.reply with
            | done => rfl
            | failed => exact absurd reply arrived
            | lost => exact absurd reply notLost
          refine inTime (beq_iff_eq.mpr done) snapshot ?_
          unfold Table.committing?
          rw [workers]
          exact stands
      | _ => exact ok.uploads ordered.shared.fresh trimmed grows more rfl rfl inFlight

end Work

/-! ## Whole runs -/

namespace Table

/-- The table is what is left of one that nothing was deleted from, in which the
writer has gone through the same steps. -/
def Follows (log : Log) (config : FlusherConfig) (graceMs : Nat) (table : Table) : Prop :=
  ∃ actions s, System.run log (fun _ => config) actions = some s ∧
    (∀ action ∈ actions, OnlyWriter 0 action) ∧ s.process 0 = table.process ∧
    table.Ok graceMs s.store

theorem follows_init (log : Log) (config : FlusherConfig) (graceMs : Nat) (clockMs : Int) :
    (init clockMs).Follows log config graceMs := by
  refine ⟨[], System.init, rfl, ?_, rfl, Trimmed.refl _, ?_, ?_, ?_, ?_, Sweeping.returned rfl⟩
  · intro action member
    cases member
  · simp [init, System.init, ObjectStore.empty]
  · rintro key ⟨newest, stored, -⟩
    simp [System.init, ObjectStore.empty] at stored
  · intro w runs
    cases runs
  · intro key member
    cases member

theorem follows_step (disk : config.diskMode = true) {table next : Table} {act : TableAct}
    (follows : table.Follows log config graceMs) (inTime : table.InTime graceMs act)
    (stepped : table.step log config act = some next) : next.Follows log config graceMs := by
  rcases follows with ⟨actions, s, performed, only, same, ok⟩
  rcases System.alone_run performed only with ⟨routed, alone⟩
  cases act with
  | work act =>
    rcases Option.map_eq_some_iff.mp stepped with ⟨⟨left', process'⟩, taken, rfl⟩
    rcases ok.work routed alone disk same inTime taken with ⟨t, followed, sameProcess, ok'⟩
    refine ⟨actions ++ [⟨0, act⟩], t, ?_, fun action member => ?_, sameProcess, ok'⟩
    · exact Execution.run_concat_iff.mpr ⟨s, performed, followed⟩
    · rcases List.mem_append.mp member with before | last
      · exact only action before
      · rw [List.mem_singleton.mp last]
        exact inTime.1
  | startSweep policy =>
    simp only [step] at stepped
    split at stepped <;> cases stepped
    exact ⟨actions, s, performed, only, same, ok.startSweep inTime.1 inTime.2⟩
  | sweep reply =>
    rcases Option.map_eq_some_iff.mp stepped with ⟨⟨sweep, bucket⟩, taken, rfl⟩
    have ordered := routed.1.1.shared
    exact ⟨actions, s, performed, only, same, ok.sweepStep ordered.fresh ordered taken⟩
  | wait ms =>
    cases stepped
    exact ⟨actions, s, performed, only, same, ok.wait ms⟩

end Table

/-- Whatever a sweep does between the steps of the only writer: if everything
uploaded for a snapshot is committed within the grace period, then the metadata of
the snapshot committed last and all objects it names exist. -/
theorem newest_survives_sweeps {log : Log} {config : FlusherConfig} {graceMs : Nat}
    {clockMs : Int} {acts : List TableAct} {table : Table} (disk : config.diskMode = true)
    (performed : Table.run log config clockMs acts = some table)
    (inTime : Execution.Allowed (Table.step log config) (Table.InTime graceMs) acts
      (Table.init clockMs)) :
    ∀ newest ∈ table.lastCommitted,
      table.bucket.store.snapshots[newest.sequence]? = some newest ∧
        ∀ key ∈ newest.objects, table.bucket.store.Has key := by
  have follows : table.Follows log config graceMs :=
    Execution.run_invariant (Table.Follows log config graceMs)
      (fun _ _ _ follows permitted stepped => Table.follows_step disk follows permitted stepped)
      (Table.follows_init log config graceMs clockMs) performed inTime
  rcases follows with ⟨actions, s, whole, only, -, ok⟩
  rcases System.alone_run whole only with ⟨⟨⟨ordered, -⟩, -⟩, -⟩
  intro newest committed
  have stored := ok.last.symm.trans committed
  constructor
  · rw [ordered.shared.named _ newest stored, ok.trimmed.newest]
    exact stored
  · exact fun key object => ok.present key ⟨newest, stored, object⟩

/-- A sweep reads two snapshots; before it goes on, the writer publishes a merge that
replaces their runs.  The data file and the metadata of the first snapshot go. -/
def Script.swept : List TableAct :=
  (boot 0 ++ ingest 0 0 1 ++ lead 0 4 ++ ingest 0 0 2 ++ lead 0 4 ++ lead 0 1).map
      (fun action => .work action.act) ++
    [.wait 1000, .startSweep ⟨1, 0, 100⟩, .sweep .done, .sweep .done] ++
    (⟨0, .finishMerge true⟩ :: lead 0 3).map (fun action => .work action.act) ++
    List.replicate 6 (.sweep .done)

theorem newest_survives_sweeps_merge :
    ∃ table newest, Table.run (Script.line 2) (Script.worker true) 0 Script.swept = some table ∧
      table.lastCommitted = some newest ∧ newest.sequence = 3 ∧
      table.bucket.store.snapshots.keys = [2, 3] ∧ table.bucket.store.data.keys = [2] ∧
      ∀ key ∈ newest.objects, table.bucket.store.Has key := by
  have reaches : (Table.run (Script.line 2) (Script.worker true) 0 Script.swept).any
      (fun table => table.lastCommitted.any (fun newest => newest.sequence == 3) &&
        table.bucket.store.snapshots.keys == [2, 3] &&
        table.bucket.store.data.keys == [2]) = true := by decide +kernel
  rcases (Option.any_eq_true _ _).mp reaches with ⟨table, performed, facts⟩
  simp only [Bool.and_eq_true, beq_iff_eq] at facts
  rcases facts with ⟨⟨committed, snapshots⟩, data⟩
  rcases (Option.any_eq_true _ _).mp committed with ⟨newest, last, third⟩
  refine ⟨table, newest, performed, last, beq_iff_eq.mp third, snapshots, data, ?_⟩
  have inTime : Execution.Allowed (Table.step (Script.line 2) (Script.worker true))
      (Table.InTime 100) Script.swept (Table.init 0) := by decide +kernel
  exact (newest_survives_sweeps rfl performed inTime newest last).2

end Blaze
