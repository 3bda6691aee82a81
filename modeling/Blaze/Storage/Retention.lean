import Blaze.Lib.Execution
import Blaze.Lib.Fallible
import Blaze.Lib.Worklist
import Blaze.Storage.Tick

/-!
# Retention

A sweep deletes what no retained snapshot can reach.  It lists and reads the
metadata, decides from that which snapshots to retain and which objects they
name, and then deletes everything else that is old enough, objects first and
metadata last.  The sweep is a machine that stands at each of its requests, so
that it can be run alone or between the steps of a worker.
-/

namespace Blaze

open List

variable {snapshot : SnapshotMeta} {k : Nat} {snapshots : Snapshots} {metas : List SnapshotMeta}
  {policy : RetentionPolicy} {nowMs : Int}

/-! ## Times -/

/-- The value an integer has as an `i64`. -/
def asI64 (n : Int) : Int :=
  Int.bmod n (2 ^ 64)

/-- The integers an `i64` holds. -/
def InI64 (n : Int) : Prop :=
  -2 ^ 63 ≤ n ∧ n < 2 ^ 63

instance (n : Int) : Decidable (InI64 n) :=
  inferInstanceAs (Decidable (_ ∧ _))

/-- How much history to keep; the durations are in milliseconds. -/
structure RetentionPolicy where
  keepSnapshots : Nat
  keepForMs : Nat
  graceMs : Nat
  deriving DecidableEq, Repr

namespace RetentionPolicy

/-- `now_ms` less a duration, in `i64` arithmetic. -/
def before (nowMs : Int) (durationMs : Nat) : Int :=
  asI64 (nowMs - asI64 durationMs)

/-- Snapshots committed at or after this time are kept. -/
def cutoffMs (policy : RetentionPolicy) (nowMs : Int) : Int :=
  before nowMs policy.keepForMs

/-- Objects modified after this time are not touched. -/
def graceCutoffMs (policy : RetentionPolicy) (nowMs : Int) : Int :=
  before nowMs policy.graceMs

/-- The result is exact whenever it fits. -/
theorem before_eq {nowMs : Int} {durationMs : Nat} (fits : InI64 (nowMs - durationMs)) :
    before nowMs durationMs = nowMs - durationMs := by
  unfold before asI64
  rw [Int.sub_bmod_bmod]
  rcases fits with ⟨low, high⟩
  exact Int.bmod_eq_of_le (by omega) (by omega)

end RetentionPolicy

/-- What a sweep reclaimed, and what it decided to keep. -/
structure Reclaimed where
  snapshotsExpired : Nat
  objectsDeleted : Nat
  bytesDeleted : Nat
  snapshotsKept : Nat
  objectsLive : Nat
  objectsTooYoung : Nat
  deriving DecidableEq, Repr

def Reclaimed.default : Reclaimed :=
  ⟨0, 0, 0, 0, 0, 0⟩

/-! ## Objects -/

/-- The folders a sweep lists. -/
inductive Folder where
  | puffin
  | data
  deriving DecidableEq, Repr

/-- An object outside the metadata. -/
structure ObjectKey where
  folder : Folder
  uuid : Nat
  deriving DecidableEq, Repr

/-- What a listing says about an object. -/
structure ObjectMeta where
  lastModifiedMs : Int
  size : Nat
  deriving DecidableEq, Repr

/-- The object store with what it says about each object and each metadata
file. -/
structure Bucket where
  store : ObjectStore
  objectMeta : ObjectKey → ObjectMeta
  snapshotModifiedMs : Nat → Int

namespace ObjectStore

/-- The object exists. -/
def Has (store : ObjectStore) (key : ObjectKey) : Prop :=
  match key.folder with
  | .puffin => key.uuid ∈ store.puffins
  | .data => key.uuid ∈ store.data

/-- All objects of a folder. -/
def list (store : ObjectStore) : Folder → List ObjectKey
  | .puffin => store.puffins.keys.map fun uuid => ⟨.puffin, uuid⟩
  | .data => store.data.keys.map fun uuid => ⟨.data, uuid⟩

/-- Delete an object. -/
def delete (store : ObjectStore) (key : ObjectKey) : ObjectStore :=
  match key.folder with
  | .puffin => { store with puffins := store.puffins.erase key.uuid }
  | .data => { store with data := store.data.erase key.uuid }

theorem snapshots_delete (store : ObjectStore) (key : ObjectKey) :
    (store.delete key).snapshots = store.snapshots := by
  unfold delete
  cases key.folder <;> rfl

/-- Delete the metadata of a snapshot. -/
def expire (store : ObjectStore) (sequence : Nat) : ObjectStore :=
  { store with snapshots := store.snapshots.erase sequence }

end ObjectStore

/-- The objects a snapshot names. -/
def SnapshotMeta.objects (snapshot : SnapshotMeta) : List ObjectKey :=
  ⟨.puffin, snapshot.puffinPath.uuid⟩ ::
    (snapshot.dataFiles.map fun file => ⟨.data, file.path.uuid⟩) ++
    (snapshot.runs.map fun run => ⟨.puffin, run.path.uuid⟩)

theorem SnapshotMeta.puffin_mem_objects (snapshot : SnapshotMeta) :
    ⟨.puffin, snapshot.puffinPath.uuid⟩ ∈ snapshot.objects :=
  mem_cons_self

theorem SnapshotMeta.data_mem_objects {file : DataFileMeta} (member : file ∈ snapshot.dataFiles) :
    ⟨.data, file.path.uuid⟩ ∈ snapshot.objects := by
  apply mem_append_left
  apply mem_cons_of_mem
  exact mem_map.mpr ⟨file, member, rfl⟩

theorem SnapshotMeta.run_mem_objects {run : RunMeta} (member : run ∈ snapshot.runs) :
    ⟨.puffin, run.path.uuid⟩ ∈ snapshot.objects := by
  apply mem_append_right
  exact mem_map.mpr ⟨run, member, rfl⟩

/-! ## What to keep -/

/-- The sequences of the chain of a snapshot that has no runs. -/
def SnapshotMeta.chain (snapshot : SnapshotMeta) : List Nat :=
  match snapshot.runSet with
  | .ok (.sequencesOnly first last) => List.range' first (last + 1 - first)
  | _ => []

/-- What a sweep has decided: the sequences it listed, those it retains, the
objects that are live, and the time from which on objects are too young. -/
structure Plan where
  all : List Nat
  retained : List Nat
  live : List ObjectKey
  graceMs : Int

namespace Plan

/-- The newest snapshots, and those inside the time window. -/
def seeds (policy : RetentionPolicy) (nowMs : Int) (all : List Nat) (metas : List SnapshotMeta) :
    List Nat :=
  (all.zip metas).foldl
    (fun retained entry =>
      if policy.cutoffMs nowMs ≤ entry.2.committedAtMs then retained.insert entry.1 else retained)
    (all.reverse.take (max policy.keepSnapshots 1))

/-- The metadata that was read for a sequence. -/
def bySequence (metas : List SnapshotMeta) (sequence : Nat) : Option SnapshotMeta :=
  metas.reverse.find? fun snapshot => snapshot.sequence == sequence

/-- The sequences a retained snapshot needs. -/
def needs (metas : List SnapshotMeta) (sequence : Nat) : List Nat :=
  ((bySequence metas sequence).map SnapshotMeta.chain).getD []

/-- The seeds, and the chains of what is retained.  Every sequence is queued at
most once, which bounds the loop. -/
def retain (metas : List SnapshotMeta) (seeds : List Nat) : List Nat :=
  Worklist.close (needs metas) (seeds.length + (metas.flatMap SnapshotMeta.chain).length)
    ⟨seeds, seeds⟩

/-- Everything any retained snapshot names. -/
def liveObjects (metas : List SnapshotMeta) (retained : List Nat) : List ObjectKey :=
  ((metas.filter fun snapshot => retained.contains snapshot.sequence).flatMap
    SnapshotMeta.objects).dedup

def new (policy : RetentionPolicy) (nowMs : Int) (all : List Nat) (metas : List SnapshotMeta) :
    Plan :=
  let retained := retain metas (seeds policy nowMs all metas)
  { all
    retained
    live := liveObjects metas retained
    graceMs := policy.graceCutoffMs nowMs }

end Plan

/-! ## The sweep -/

/-- Where a sweep stands: at the request it has made, or returned. -/
inductive Sweep where
  | returned (result : Except String Reclaimed)
  | listSnapshots (policy : RetentionPolicy) (nowMs : Int)
  | readSnapshot (policy : RetentionPolicy) (nowMs : Int) (all : List Nat)
      (metas : List SnapshotMeta) (sequence : Nat) (unread : List Nat)
  | listObjects (plan : Plan) (folder : Folder) (out : Reclaimed)
  | deleteObject (plan : Plan) (folder : Folder) (key : ObjectKey) (doomed : List ObjectKey)
      (out : Reclaimed)
  | headSnapshot (plan : Plan) (sequence : Nat) (unseen : List Nat) (out : Reclaimed)
  | deleteSnapshot (plan : Plan) (sequence : Nat) (unseen : List Nat) (out : Reclaimed)

namespace Sweep

/-- Go on with the next snapshot to expire. -/
def nextSnapshot (plan : Plan) (unseen : List Nat) (out : Reclaimed) : Sweep :=
  match unseen with
  | [] => .returned (.ok out)
  | sequence :: unseen => .headSnapshot plan sequence unseen out

/-- Go on with the next object to delete, the next folder, or the metadata. -/
def nextObject (plan : Plan) (folder : Folder) (doomed : List ObjectKey) (out : Reclaimed) :
    Sweep :=
  match doomed with
  | key :: doomed => .deleteObject plan folder key doomed out
  | [] =>
      match folder with
      | .puffin => .listObjects plan .data out
      | .data =>
          nextSnapshot plan (plan.all.filter fun sequence => !plan.retained.contains sequence) out

/-- Go on with the next snapshot to read; once all are read, decide. -/
def nextRead (policy : RetentionPolicy) (nowMs : Int) (all : List Nat)
    (metas : List SnapshotMeta) (unread : List Nat) : Sweep :=
  match unread with
  | sequence :: unread => .readSnapshot policy nowMs all metas sequence unread
  | [] =>
      let plan := Plan.new policy nowMs all metas
      .listObjects plan .puffin
        { Reclaimed.default with
          snapshotsKept := plan.retained.length
          objectsLive := plan.live.length }

/-- The sequences are listed: nothing is done on an empty catalog. -/
def listed (policy : RetentionPolicy) (nowMs : Int) (all : List Nat) : Sweep :=
  if all.isEmpty then .returned (.ok Reclaimed.default) else nextRead policy nowMs all [] all

/-- A listing of a folder: what is unreachable and old enough is doomed. -/
def listedObjects (bucket : Bucket) (plan : Plan) (folder : Folder) (out : Reclaimed) : Sweep :=
  let unreachable := (bucket.store.list folder).filter fun key => !plan.live.contains key
  let young := fun key => decide (plan.graceMs < (bucket.objectMeta key).lastModifiedMs)
  nextObject plan folder (unreachable.filter fun key => !young key)
    { out with objectsTooYoung := out.objectsTooYoung + unreachable.countP young }

/-- The metadata of an expired snapshot, if it is still there, is deleted unless it
is too young. -/
def headed (bucket : Bucket) (plan : Plan) (sequence : Nat) (unseen : List Nat)
    (out : Reclaimed) : Sweep :=
  if bucket.store.snapshots.contains sequence then
    if plan.graceMs < bucket.snapshotModifiedMs sequence then
      nextSnapshot plan unseen { out with objectsTooYoung := out.objectsTooYoung + 1 }
    else
      .deleteSnapshot plan sequence unseen out
  else
    nextSnapshot plan unseen out

/-- Take the reply to the request the sweep stands at. -/
def step (bucket : Bucket) (reply : Reply) : Sweep → Option (Sweep × Bucket)
  | .returned _ => none
  | .listSnapshots policy nowMs =>
      match reply with
      | .done => some (listed policy nowMs bucket.store.snapshots.keys, bucket)
      | _ => some (.returned (.error "list request failed"), bucket)
  | .readSnapshot policy nowMs all metas sequence unread =>
      match reply, SnapshotCatalog.get bucket.store.snapshots sequence with
      | .done, .ok snapshot =>
          some (nextRead policy nowMs all (metas ++ [snapshot]) unread, bucket)
      | _, _ => some (.returned (.ok Reclaimed.default), bucket)
  | .listObjects plan folder out =>
      match reply with
      | .done => some (listedObjects bucket plan folder out, bucket)
      | _ => some (.returned (.error "list request failed"), bucket)
  | .deleteObject plan folder key doomed out =>
      match reply with
      | .done =>
          some (nextObject plan folder doomed
            { out with
              objectsDeleted := out.objectsDeleted + 1
              bytesDeleted := out.bytesDeleted + (bucket.objectMeta key).size },
            { bucket with store := bucket.store.delete key })
      | .failed => some (nextObject plan folder doomed out, bucket)
      | .lost =>
          some (nextObject plan folder doomed out,
            { bucket with store := bucket.store.delete key })
  | .headSnapshot plan sequence unseen out =>
      match reply with
      | .done => some (headed bucket plan sequence unseen out, bucket)
      | _ => some (nextSnapshot plan unseen out, bucket)
  | .deleteSnapshot plan sequence unseen out =>
      match reply with
      | .done =>
          some (nextSnapshot plan unseen
            { out with snapshotsExpired := out.snapshotsExpired + 1 },
            { bucket with store := bucket.store.expire sequence })
      | .failed => some (nextSnapshot plan unseen out, bucket)
      | .lost =>
          some (nextSnapshot plan unseen out,
            { bucket with store := bucket.store.expire sequence })

end Sweep

/-- `collect` running alone, up to where it stands after the given replies. -/
def collect (policy : RetentionPolicy) (nowMs : Int) (replies : List Reply) (bucket : Bucket) :
    Option (Sweep × Bucket) :=
  Execution.run (fun state reply => state.1.step state.2 reply) replies
    (.listSnapshots policy nowMs, bucket)

/-! ## What a sweep keeps -/

/-- The metadata read for the sequences, one after the other. -/
def Snapshots.Read (snapshots : Snapshots) (sequences : List Nat) (metas : List SnapshotMeta) :
    Prop :=
  List.Forall₂ (fun k snapshot => snapshots[k]? = some snapshot) sequences metas

/-- Every snapshot is stored under its own sequence. -/
def Snapshots.Named (snapshots : Snapshots) : Prop :=
  ∀ (k : Nat) (snapshot : SnapshotMeta), snapshots[k]? = some snapshot → snapshot.sequence = k

/-- The plan of a sweep that found `snapshots`. -/
def Planned (snapshots : Snapshots) (policy : RetentionPolicy) (nowMs : Int) (plan : Plan) :
    Prop :=
  ∃ metas, snapshots.Read snapshots.keys metas ∧ plan = Plan.new policy nowMs snapshots.keys metas

/-- The sequence has fewer than `n` sequences above it. -/
def Snapshots.AmongNewest (snapshots : Snapshots) (n k : Nat) : Prop :=
  (snapshots.keys.filter fun above => decide (k < above)).length < n

instance (snapshots : Snapshots) (n k : Nat) : Decidable (snapshots.AmongNewest n k) :=
  inferInstanceAs (Decidable (_ < _))

section Reading

variable {sequences : List Nat}

theorem Snapshots.Read.exists_of_mem (read : snapshots.Read sequences metas)
    (member : k ∈ sequences) : ∃ snapshot ∈ metas, snapshots[k]? = some snapshot :=
  Fallible.exists_related (List.Forall₂.flip read) member

theorem Snapshots.mem_keys_of_getElem? (stored : snapshots[k]? = some snapshot) :
    k ∈ snapshots.keys := by
  rw [Std.TreeMap.mem_keys]
  exact KeyedMap.mem_of_getElem? stored

/-- What was read for a listed sequence is the snapshot stored there. -/
theorem Snapshots.Read.bySequence (read : snapshots.Read snapshots.keys metas)
    (named : snapshots.Named) (stored : snapshots[k]? = some snapshot) :
    Plan.bySequence metas k = some snapshot := by
  unfold Plan.bySequence
  cases found : metas.reverse.find? fun snapshot => snapshot.sequence == k with
  | none =>
    rcases read.exists_of_mem (Snapshots.mem_keys_of_getElem? stored) with
      ⟨same, member, stored'⟩
    have absent := find?_eq_none.mp found same (mem_reverse.mpr member)
    simp [named k same stored'] at absent
  | some other =>
    have matched := find?_some found
    rw [beq_iff_eq] at matched
    have member := mem_reverse.mp (mem_of_find?_eq_some found)
    rcases Fallible.exists_related read member with ⟨j, -, stored'⟩
    rw [← matched, named j other stored', stored'] at stored
    exact stored

/-- What was read for each listed sequence. -/
theorem Snapshots.Read.mem_zip_iff (read : snapshots.Read sequences metas) :
    (k, snapshot) ∈ sequences.zip metas ↔ k ∈ sequences ∧ snapshots[k]? = some snapshot := by
  induction read with
  | nil => simp
  | @cons j held sequences metas here rest ih =>
    rw [zip_cons_cons, mem_cons, mem_cons, ih, Prod.mk.injEq]
    constructor
    · rintro (⟨rfl, rfl⟩ | ⟨member, stored⟩)
      · exact ⟨Or.inl rfl, here⟩
      · exact ⟨Or.inr member, stored⟩
    · rintro ⟨rfl | member, stored⟩
      · rw [here] at stored
        exact Or.inl ⟨rfl, (Option.some.inj stored).symm⟩
      · exact Or.inr ⟨member, stored⟩

theorem Snapshots.keys_ascending (snapshots : Snapshots) : snapshots.keys.Pairwise (· < ·) :=
  (Std.TreeMap.ordered_keys (t := snapshots)).imp fun before => Nat.compare_eq_lt.mp before

end Reading

/-- In an ascending list, whatever has fewer than `n` items above it is one of the
last `n`. -/
theorem mem_take_reverse {items : List Nat} (ascending : items.Pairwise (· < ·)) {n : Nat}
    (member : k ∈ items) (few : (items.filter fun above => decide (k < above)).length < n) :
    k ∈ items.reverse.take n := by
  rcases append_of_mem member with ⟨below, above, rfl⟩
  rw [pairwise_append, pairwise_cons] at ascending
  rcases ascending with ⟨-, ⟨later, -⟩, -⟩
  have all : above.filter (fun item => decide (k < item)) = above :=
    filter_eq_self.mpr fun item inAbove => by simpa using later item inAbove
  have enough : above.length < n := by
    refine lt_of_le_of_lt ?_ few
    rw [filter_append, filter_cons, if_neg (by simp), all, length_append]
    exact Nat.le_add_left _ _
  rw [reverse_append, reverse_cons, append_assoc, take_append]
  apply mem_append_right
  rw [length_reverse]
  obtain ⟨m, room⟩ : ∃ m, n - above.length = m + 1 := ⟨n - above.length - 1, by omega⟩
  rw [room]
  exact mem_cons_self

namespace Plan

variable {all : List Nat}

theorem mem_foldl_insert {entries : List (Nat × SnapshotMeta)} (start : List Nat) (k : Nat) :
    k ∈ entries.foldl (fun retained entry =>
        if policy.cutoffMs nowMs ≤ entry.2.committedAtMs then retained.insert entry.1
        else retained) start ↔
      k ∈ start ∨ ∃ entry ∈ entries, policy.cutoffMs nowMs ≤ entry.2.committedAtMs ∧
        entry.1 = k := by
  induction entries generalizing start with
  | nil => simp
  | cons entry entries ih =>
    rw [foldl_cons, ih]
    split <;> grind

theorem mem_seeds (k : Nat) :
    k ∈ seeds policy nowMs all metas ↔ k ∈ all.reverse.take (max policy.keepSnapshots 1) ∨
      ∃ entry ∈ all.zip metas, policy.cutoffMs nowMs ≤ entry.2.committedAtMs ∧ entry.1 = k :=
  mem_foldl_insert _ k

/-- The seeds are retained, and with a snapshot its chain. -/
theorem retain_spec (metas : List SnapshotMeta) (seeds : List Nat) :
    (∀ k ∈ seeds, k ∈ retain metas seeds) ∧
      ∀ k ∈ retain metas seeds, ∀ needed ∈ needs metas k, needed ∈ retain metas seeds := by
  have known : ∀ k, ∀ needed ∈ needs metas k,
      needed ∈ (metas.flatMap SnapshotMeta.chain).toFinset := by
    intro k needed member
    unfold needs at member
    cases found : bySequence metas k with
    | none =>
      rw [found] at member
      cases member
    | some snapshot =>
      rw [found] at member
      unfold bySequence at found
      rw [mem_toFinset, mem_flatMap]
      exact ⟨snapshot, mem_reverse.mp (mem_of_find?_eq_some found), member⟩
  have enough : Worklist.State.left (metas.flatMap SnapshotMeta.chain).toFinset ⟨seeds, seeds⟩ ≤
      seeds.length + (metas.flatMap SnapshotMeta.chain).length := by
    apply Nat.add_le_add_left
    exact (Finset.card_le_card Finset.sdiff_subset).trans (toFinset_card_le _)
  exact Worklist.closed_close known enough fun k member => Or.inl member

end Plan

namespace Planned

variable {plan : Plan}

section Planned

variable (planned : Planned snapshots policy nowMs plan)

include planned

theorem all_eq : plan.all = snapshots.keys := by
  rcases planned with ⟨metas, -, rfl⟩
  rfl

theorem graceMs_eq : plan.graceMs = policy.graceCutoffMs nowMs := by
  rcases planned with ⟨metas, -, rfl⟩
  rfl

theorem retains_newest (member : k ∈ snapshots)
    (newest : snapshots.AmongNewest (max policy.keepSnapshots 1) k) : k ∈ plan.retained := by
  rcases planned with ⟨metas, -, rfl⟩
  apply (Plan.retain_spec _ _).1
  rw [Plan.mem_seeds]
  exact Or.inl (mem_take_reverse snapshots.keys_ascending (Std.TreeMap.mem_keys.mpr member) newest)

/-- Whatever the policy, the newest snapshot is retained. -/
theorem retains_top (member : k ∈ snapshots) (top : ∀ other ∈ snapshots, other ≤ k) :
    k ∈ plan.retained := by
  apply planned.retains_newest member
  have none : snapshots.keys.filter (fun above => decide (k < above)) = [] := by
    rw [filter_eq_nil_iff]
    intro other above
    simpa using top other (Std.TreeMap.mem_keys.mp above)
  unfold Snapshots.AmongNewest
  rw [none]
  exact Nat.lt_of_lt_of_le Nat.one_pos (le_max_right _ _)

theorem retains_recent (stored : snapshots[k]? = some snapshot)
    (recent : policy.cutoffMs nowMs ≤ snapshot.committedAtMs) : k ∈ plan.retained := by
  rcases planned with ⟨metas, read, rfl⟩
  apply (Plan.retain_spec _ _).1
  rw [Plan.mem_seeds]
  right
  have listed := Snapshots.mem_keys_of_getElem? stored
  exact ⟨(k, snapshot), read.mem_zip_iff.mpr ⟨listed, stored⟩, recent, rfl⟩

theorem retains_chain (named : snapshots.Named) (stored : snapshots[k]? = some snapshot)
    (retained : k ∈ plan.retained) {needed : Nat} (link : needed ∈ snapshot.chain) :
    needed ∈ plan.retained := by
  rcases planned with ⟨metas, read, rfl⟩
  apply (Plan.retain_spec _ _).2 k retained
  unfold Plan.needs
  rw [read.bySequence named stored]
  exact link

theorem mem_live (named : snapshots.Named) (stored : snapshots[k]? = some snapshot)
    (retained : k ∈ plan.retained) {key : ObjectKey} (object : key ∈ snapshot.objects) :
    key ∈ plan.live := by
  rcases planned with ⟨metas, read, rfl⟩
  rcases read.exists_of_mem (Snapshots.mem_keys_of_getElem? stored) with
    ⟨same, member, stored'⟩
  rw [stored] at stored'
  cases stored'
  change key ∈ Plan.liveObjects metas _
  unfold Plan.liveObjects
  rw [mem_dedup, mem_flatMap]
  refine ⟨snapshot, mem_filter.mpr ⟨member, ?_⟩, object⟩
  rw [contains_iff_mem, named k snapshot stored]
  exact retained

end Planned

end Planned

end Blaze
