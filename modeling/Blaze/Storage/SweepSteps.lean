import Blaze.Storage.Retention

/-!
# What a step of a sweep can do

A sweep decides from the metadata it found when it listed the catalog.  Whatever
happens to the table meanwhile, each of its steps deletes at most one object that
this plan does not keep alive, or the metadata of one snapshot the plan does not
retain, and neither is younger than the plan allows.
-/

namespace Blaze

variable {unseen : List Nat} {found : Snapshots} {policy : RetentionPolicy} {nowMs : Int}
  {bucket bucket' : Bucket}

/-- The plan does not keep the object, and it is old enough to go. -/
def Plan.Dooms (plan : Plan) (objectMeta : ObjectKey → ObjectMeta) (key : ObjectKey) : Prop :=
  key ∉ plan.live ∧ (objectMeta key).lastModifiedMs ≤ plan.graceMs

/-- The sweep works from `found`, the metadata at the time it listed the catalog.
While it reads, the metadata is still there; what it is about to delete is
doomed. -/
def Sweep.Sound (found : Snapshots) (policy : RetentionPolicy) (nowMs : Int) (bucket : Bucket) :
    Sweep → Prop
  | .returned _ => True
  | .listSnapshots _ _ => False
  | .readSnapshot policy' nowMs' all metas sequence unread =>
      policy' = policy ∧ nowMs' = nowMs ∧ all = found.keys ∧
        (∀ (k : Nat) (snapshot : SnapshotMeta), found[k]? = some snapshot →
          bucket.store.snapshots[k]? = some snapshot) ∧
        ∃ past, all = past ++ sequence :: unread ∧ found.Read past metas
  | .listObjects plan _ _ => Planned found policy nowMs plan
  | .deleteObject plan _ key doomed _ => Planned found policy nowMs plan ∧
      ∀ other ∈ key :: doomed, plan.Dooms bucket.objectMeta other
  | .headSnapshot plan sequence unseen _ => Planned found policy nowMs plan ∧
      ∀ k ∈ sequence :: unseen, k ∈ found ∧ k ∉ plan.retained
  | .deleteSnapshot plan sequence unseen _ => Planned found policy nowMs plan ∧
      (∀ k ∈ sequence :: unseen, k ∈ found ∧ k ∉ plan.retained) ∧
      bucket.snapshotModifiedMs sequence ≤ plan.graceMs

/-- What a step of a sweep leaves of the bucket. -/
inductive Swept (found : Snapshots) (policy : RetentionPolicy) (nowMs : Int) (bucket : Bucket) :
    Bucket → Prop
  | same : Swept found policy nowMs bucket bucket
  | object {plan : Plan} {key : ObjectKey} (planned : Planned found policy nowMs plan)
      (doomed : plan.Dooms bucket.objectMeta key) :
      Swept found policy nowMs bucket { bucket with store := bucket.store.delete key }
  | snapshot {plan : Plan} {sequence : Nat} (planned : Planned found policy nowMs plan)
      (present : sequence ∈ found) (expired : sequence ∉ plan.retained)
      (old : bucket.snapshotModifiedMs sequence ≤ plan.graceMs) :
      Swept found policy nowMs bucket { bucket with store := bucket.store.expire sequence }

namespace Sweep

variable {found : Snapshots} {policy : RetentionPolicy} {nowMs : Int} {bucket bucket' : Bucket}
  {plan : Plan} {sweep sweep' : Sweep} {reply : Reply}

theorem sound_nextSnapshot (planned : Planned found policy nowMs plan)
    (expired : ∀ k ∈ unseen, k ∈ found ∧ k ∉ plan.retained) (out : Reclaimed) :
    (nextSnapshot plan unseen out).Sound found policy nowMs bucket := by
  cases unseen with
  | nil => trivial
  | cons sequence unseen => exact ⟨planned, expired⟩

theorem sound_nextObject (planned : Planned found policy nowMs plan) (folder : Folder)
    {doomed : List ObjectKey} (dooms : ∀ key ∈ doomed, plan.Dooms bucket.objectMeta key)
    (out : Reclaimed) : (nextObject plan folder doomed out).Sound found policy nowMs bucket := by
  cases doomed with
  | cons key doomed => exact ⟨planned, dooms⟩
  | nil =>
    cases folder with
    | puffin => exact planned
    | data =>
      apply sound_nextSnapshot planned
      intro k member
      rw [List.mem_filter, planned.all_eq, Std.TreeMap.mem_keys] at member
      exact ⟨member.1, by simpa using member.2⟩

theorem sound_nextRead
    (still : ∀ (k : Nat) (snapshot : SnapshotMeta), found[k]? = some snapshot →
      bucket.store.snapshots[k]? = some snapshot)
    {past unread : List Nat} {metas : List SnapshotMeta} (split : found.keys = past ++ unread)
    (read : found.Read past metas) :
    (nextRead policy nowMs found.keys metas unread).Sound found policy nowMs bucket := by
  cases unread with
  | cons sequence unread => exact ⟨rfl, rfl, rfl, still, past, split, read⟩
  | nil =>
    rw [List.append_nil] at split
    rw [← split] at read
    exact ⟨metas, read, rfl⟩

/-- A sweep that has listed the catalog works from what it found. -/
theorem sound_listed (policy : RetentionPolicy) (nowMs : Int) (bucket : Bucket) :
    (listed policy nowMs bucket.store.snapshots.keys).Sound bucket.store.snapshots policy nowMs
      bucket := by
  unfold listed
  split
  · trivial
  · exact sound_nextRead (fun _ _ stored => stored) rfl .nil

theorem sound_listedObjects (planned : Planned found policy nowMs plan) (folder : Folder)
    (out : Reclaimed) :
    (listedObjects bucket plan folder out).Sound found policy nowMs bucket := by
  apply sound_nextObject planned
  intro key member
  rw [List.mem_filter, List.mem_filter] at member
  exact ⟨by simpa using member.1.2, by simpa using member.2⟩

theorem sound_headed {sequence : Nat} (planned : Planned found policy nowMs plan)
    (expired : ∀ k ∈ sequence :: unseen, k ∈ found ∧ k ∉ plan.retained) (out : Reclaimed) :
    (headed bucket plan sequence unseen out).Sound found policy nowMs bucket := by
  have rest : ∀ k ∈ unseen, k ∈ found ∧ k ∉ plan.retained :=
    fun k member => expired k (List.mem_cons_of_mem sequence member)
  unfold headed
  split
  · split
    · exact sound_nextSnapshot planned rest _
    · next old => exact ⟨planned, expired, not_lt.mp old⟩
  · exact sound_nextSnapshot planned rest _

/-- A step of a sweep that works from `found` goes on working from it, and deletes
nothing that it has to keep. -/
theorem Sound.step (sound : sweep.Sound found policy nowMs bucket)
    (stepped : sweep.step bucket reply = some (sweep', bucket')) :
    sweep'.Sound found policy nowMs bucket' ∧ Swept found policy nowMs bucket bucket' := by
  cases sweep with
  | returned => cases stepped
  | listSnapshots => cases sound
  | readSnapshot policy' nowMs' all metas sequence unread =>
    rcases sound with ⟨rfl, rfl, rfl, still, past, split, read⟩
    simp only [Sweep.step] at stepped
    split at stepped
    · next snapshot got =>
        cases stepped
        have listed : sequence ∈ found.keys := by
          rw [split]
          simp
        rcases Option.isSome_iff_exists.mp (Std.TreeMap.mem_iff_isSome_getElem?.mp
          (Std.TreeMap.mem_keys.mp listed)) with ⟨stored, present⟩
        have same := SnapshotCatalog.get_eq_ok_iff.mp got
        rw [still sequence stored present] at same
        cases same
        have split' : found.keys = (past ++ [sequence]) ++ unread := by simpa using split
        exact ⟨sound_nextRead still split' (List.rel_append read (.cons present .nil)), .same⟩
    · cases stepped
      exact ⟨trivial, .same⟩
  | listObjects plan folder out =>
    cases reply <;> cases stepped
    · exact ⟨sound_listedObjects sound folder out, .same⟩
    · exact ⟨trivial, .same⟩
    · exact ⟨trivial, .same⟩
  | deleteObject plan folder key doomed out =>
    rcases sound with ⟨planned, dooms⟩
    have rest : ∀ other ∈ doomed, plan.Dooms bucket.objectMeta other :=
      fun other member => dooms other (List.mem_cons_of_mem key member)
    have deletes : Swept found policy nowMs bucket
        { bucket with store := bucket.store.delete key } :=
      .object planned (dooms key List.mem_cons_self)
    cases reply <;> cases stepped
    · constructor
      · apply sound_nextObject planned
        exact rest
      · exact deletes
    · exact ⟨sound_nextObject planned folder rest _, .same⟩
    · constructor
      · apply sound_nextObject planned
        exact rest
      · exact deletes
  | headSnapshot plan sequence unseen out =>
    rcases sound with ⟨planned, expired⟩
    have rest : ∀ k ∈ unseen, k ∈ found ∧ k ∉ plan.retained :=
      fun k member => expired k (List.mem_cons_of_mem sequence member)
    cases reply <;> cases stepped
    · exact ⟨sound_headed planned expired out, .same⟩
    · exact ⟨sound_nextSnapshot planned rest out, .same⟩
    · exact ⟨sound_nextSnapshot planned rest out, .same⟩
  | deleteSnapshot plan sequence unseen out =>
    rcases sound with ⟨planned, expired, old⟩
    have rest : ∀ k ∈ unseen, k ∈ found ∧ k ∉ plan.retained :=
      fun k member => expired k (List.mem_cons_of_mem sequence member)
    rcases expired sequence List.mem_cons_self with ⟨present, unretained⟩
    have expires : Swept found policy nowMs bucket
        { bucket with store := bucket.store.expire sequence } :=
      .snapshot planned present unretained old
    cases reply <;> cases stepped
    · exact ⟨sound_nextSnapshot planned rest _, expires⟩
    · exact ⟨sound_nextSnapshot planned rest _, .same⟩
    · exact ⟨sound_nextSnapshot planned rest _, expires⟩

/-- A sweep does not mind what is added to the table after it listed the catalog. -/
theorem Sound.mono (sound : sweep.Sound found policy nowMs bucket)
    (snapshots : ∀ k ∈ found, ∀ snapshot, bucket.store.snapshots[k]? = some snapshot →
      bucket'.store.snapshots[k]? = some snapshot)
    (objects : ∀ plan folder key doomed out, sweep = .deleteObject plan folder key doomed out →
      ∀ other ∈ key :: doomed, bucket'.objectMeta other = bucket.objectMeta other)
    (modified : ∀ k ∈ found, bucket'.snapshotModifiedMs k = bucket.snapshotModifiedMs k) :
    sweep.Sound found policy nowMs bucket' := by
  cases sweep with
  | returned => trivial
  | readSnapshot policy' nowMs' all metas sequence unread =>
    rcases sound with ⟨samePolicy, sameTime, listed, still, reading⟩
    refine ⟨samePolicy, sameTime, listed, fun k snapshot stored => ?_, reading⟩
    apply snapshots k _ snapshot (still k snapshot stored)
    rw [← Std.TreeMap.mem_keys]
    exact Snapshots.mem_keys_of_getElem? stored
  | deleteObject plan folder key doomed out =>
    refine ⟨sound.1, fun other member => ?_⟩
    unfold Plan.Dooms
    rw [objects plan folder key doomed out rfl other member]
    exact sound.2 other member
  | deleteSnapshot plan sequence unseen out =>
    refine ⟨sound.1, sound.2.1, ?_⟩
    rw [modified sequence (sound.2.1 sequence List.mem_cons_self).1]
    exact sound.2.2
  | _ => exact sound

end Sweep

/-- A sweep never deletes the metadata of the highest sequence: it retains it if it
has found it. -/
theorem Swept.newest (swept : Swept found policy nowMs bucket bucket') {n : Nat}
    (top : ∀ k ∈ found, k ≤ n) : bucket'.store.snapshots[n]? = bucket.store.snapshots[n]? := by
  cases swept with
  | same => rfl
  | object => rw [ObjectStore.snapshots_delete]
  | @snapshot plan sequence planned present expired =>
    change (bucket.store.snapshots.erase sequence)[n]? = _
    rw [Std.TreeMap.getElem?_erase, if_neg]
    rw [Std.LawfulEqCmp.compare_eq_iff_eq]
    rintro rfl
    apply expired
    exact planned.retains_top present top

/-- What is left of the metadata was there before. -/
theorem Swept.snapshots_subset (swept : Swept found policy nowMs bucket bucket') {k : Nat}
    {snapshot : SnapshotMeta} (stored : bucket'.store.snapshots[k]? = some snapshot) :
    bucket.store.snapshots[k]? = some snapshot := by
  cases swept with
  | same => exact stored
  | object =>
    rw [ObjectStore.snapshots_delete] at stored
    exact stored
  | @snapshot plan sequence =>
    change (bucket.store.snapshots.erase sequence)[k]? = _ at stored
    rw [Std.TreeMap.getElem?_erase] at stored
    split at stored
    · cases stored
    · exact stored

end Blaze
