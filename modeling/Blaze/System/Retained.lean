import Blaze.Storage.SweepSteps
import Blaze.System.Steps

/-!
# What a sweep leaves

A sweep that runs alone leaves every snapshot inside the policy readable: its
metadata, the metadata and routing files of the chain it is read from, and its
data files.  This holds wherever the sweep stops, and nothing young is ever
deleted.
-/

namespace Blaze

open Fallible

variable {policy : RetentionPolicy} {nowMs : Int} {bucket : Bucket} {snapshot : SnapshotMeta}

/-! ## Deletions -/

/-- The object is the same in both stores. -/
def ObjectStore.Keeps (store store' : ObjectStore) (key : ObjectKey) : Prop :=
  match key.folder with
  | .puffin => store'.puffins[key.uuid]? = store.puffins[key.uuid]?
  | .data => store'.data[key.uuid]? = store.data[key.uuid]?

theorem ObjectStore.Keeps.refl (store : ObjectStore) (key : ObjectKey) : store.Keeps store key := by
  unfold Keeps
  cases key.folder <;> rfl

theorem ObjectStore.Keeps.trans {first second third : ObjectStore} {key : ObjectKey}
    (one : first.Keeps second key) (two : second.Keeps third key) : first.Keeps third key := by
  unfold Keeps at *
  cases folder : key.folder with
  | puffin =>
    simp only [folder] at one two
    exact two.trans one
  | data =>
    simp only [folder] at one two
    exact two.trans one

/-- Deleting an object keeps the others. -/
theorem ObjectStore.keeps_delete (store : ObjectStore) {key other : ObjectKey}
    (different : other ≠ key) : store.Keeps (store.delete key) other := by
  unfold Keeps delete
  rcases key with ⟨folder, uuid⟩
  rcases other with ⟨otherFolder, otherUuid⟩
  have apart : folder = otherFolder → ¬ compare uuid otherUuid = .eq := by
    rintro rfl same
    rw [Std.LawfulEqCmp.compare_eq_iff_eq] at same
    exact different (by rw [same])
  cases folder <;> cases otherFolder <;> simp_all [Std.TreeMap.getElem?_erase]

/-- Objects in `spared` and the metadata of sequences in `retained` are as they
were. -/
structure Bucket.Trims (spared : ObjectKey → Prop) (retained : Nat → Prop)
    (bucket bucket' : Bucket) : Prop where
  objects : ∀ key, spared key → bucket.store.Keeps bucket'.store key
  snapshots : ∀ k, retained k → bucket'.store.snapshots[k]? = bucket.store.snapshots[k]?
  objectMeta : bucket'.objectMeta = bucket.objectMeta
  snapshotModifiedMs : bucket'.snapshotModifiedMs = bucket.snapshotModifiedMs

/-- No plan made from what the bucket holds dooms the object. -/
def Bucket.Spared (bucket : Bucket) (policy : RetentionPolicy) (nowMs : Int) (key : ObjectKey) :
    Prop :=
  ∀ plan, Planned bucket.store.snapshots policy nowMs plan → ¬ plan.Dooms bucket.objectMeta key

/-- Every plan made from what the bucket holds retains the sequence, or its
metadata is too young. -/
def Bucket.Retained (bucket : Bucket) (policy : RetentionPolicy) (nowMs : Int) (k : Nat) : Prop :=
  ∀ plan, Planned bucket.store.snapshots policy nowMs plan →
    k ∈ plan.retained ∨ plan.graceMs < bucket.snapshotModifiedMs k

/-- One step of a sweep trims what its plan allows. -/
theorem Swept.trims {current next : Bucket}
    (soFar : bucket.Trims (bucket.Spared policy nowMs) (bucket.Retained policy nowMs) current)
    (swept : Swept bucket.store.snapshots policy nowMs current next) :
    bucket.Trims (bucket.Spared policy nowMs) (bucket.Retained policy nowMs) next := by
  cases swept with
  | same => exact soFar
  | @object plan key planned doomed =>
    refine ⟨fun other spared => ?_, fun k retained => ?_, soFar.objectMeta,
      soFar.snapshotModifiedMs⟩
    rotate_left
    · rw [ObjectStore.snapshots_delete]
      exact soFar.snapshots k retained
    apply (soFar.objects other spared).trans
    apply ObjectStore.keeps_delete
    rintro rfl
    rw [soFar.objectMeta] at doomed
    exact spared plan planned doomed
  | @snapshot plan sequence planned present expired old =>
    refine ⟨soFar.objects, fun k retained => ?_, soFar.objectMeta, soFar.snapshotModifiedMs⟩
    rw [← soFar.snapshots k retained]
    change (current.store.snapshots.erase sequence)[k]? = _
    rw [Std.TreeMap.getElem?_erase, if_neg]
    rw [Std.LawfulEqCmp.compare_eq_iff_eq]
    rintro rfl
    rw [soFar.snapshotModifiedMs] at old
    rcases retained plan planned with kept | young
    · exact expired kept
    · exact absurd young (not_lt.mpr old)

/-- A sweep that runs alone trims what its plan allows, wherever it stops. -/
theorem trims_collect {replies : List Reply} {sweep : Sweep} {after : Bucket}
    (swept : collect policy nowMs replies bucket = some (sweep, after)) :
    bucket.Trims (bucket.Spared policy nowMs) (bucket.Retained policy nowMs) after := by
  have invariant := Execution.run_invariant_of_step
    (fun state : Sweep × Bucket =>
      (state = (.listSnapshots policy nowMs, bucket) ∨
        state.1.Sound bucket.store.snapshots policy nowMs state.2) ∧
      bucket.Trims (bucket.Spared policy nowMs) (bucket.Retained policy nowMs) state.2)
    ?_ ⟨Or.inl rfl, fun key _ => .refl _ key, fun _ _ => rfl, rfl, rfl⟩ swept
  · exact invariant.2
  · rintro ⟨sweep, current⟩ reply ⟨sweep', next⟩ ⟨start | sound, soFar⟩ stepped
    · cases start
      cases reply <;> cases stepped
      · exact ⟨Or.inr (Sweep.sound_listed policy nowMs bucket), soFar⟩
      · exact ⟨Or.inr trivial, soFar⟩
      · exact ⟨Or.inr trivial, soFar⟩
    · rcases sound.step stepped with ⟨sound', swept⟩
      exact ⟨Or.inr sound', swept.trims soFar⟩

/-! ## What is read for a snapshot -/

/-- Computations that agree on the items give the same list. -/
theorem mapM_congr {ε α β : Type} {f g : α → Except ε β} {items : List α}
    (same : ∀ item ∈ items, f item = g item) : items.mapM f = items.mapM g := by
  induction items with
  | nil => rfl
  | cons item items ih =>
    rw [List.mapM_cons, List.mapM_cons, same item List.mem_cons_self,
      ih fun later member => same later (List.mem_cons_of_mem item member)]

section Reads

variable {snapshots snapshots' : Snapshots}

/-- Reading the runs of a snapshot reads the metadata of its chain and nothing
else. -/
theorem committedRuns_congr (same : ∀ k ∈ snapshot.chain, snapshots'[k]? = snapshots[k]?) :
    committedRuns snapshots' snapshot = committedRuns snapshots snapshot := by
  unfold committedRuns
  unfold SnapshotMeta.chain at same
  cases listed : snapshot.runSet with
  | error text => rfl
  | ok set =>
    cases set with
    | runs runs => rfl
    | sequencesOnly first last =>
      rw [listed] at same
      apply mapM_congr
      intro k link
      unfold SnapshotCatalog.get
      rw [same k link]

/-- A run that is read is listed, or is the routing file of the snapshot or of a
link of its chain. -/
theorem mem_committedRuns {runs : List RunMeta} {run : RunMeta}
    (read : committedRuns snapshots snapshot = .ok runs) (member : run ∈ runs) :
    run ∈ snapshot.runs ∨ run.path = snapshot.puffinPath ∨
      ∃ k ∈ snapshot.chain, ∃ link, snapshots[k]? = some link ∧ run.path = link.puffinPath := by
  unfold committedRuns at read
  rcases bind_eq_ok_iff.mp read with ⟨set, listed, rest⟩
  cases set with
  | runs accepted =>
    cases rest
    rcases SnapshotMeta.runSet_runs listed with ⟨sorted, -⟩
    rw [sorted, List.mem_insertionSort] at member
    exact Or.inl member
  | sequencesOnly first last =>
    right
    dsimp only at rest
    rcases exists_of_mem_mapM rest member with ⟨k, inChain, made⟩
    split at made
    · cases made
      exact Or.inl rfl
    · rcases bind_eq_ok_iff.mp made with ⟨link, found, ⟨⟩⟩
      refine Or.inr ⟨k, ?_, link, SnapshotCatalog.get_eq_ok_iff.mp found, rfl⟩
      unfold SnapshotMeta.chain
      rw [listed]
      exact inChain

end Reads

/-! ## Snapshots inside the policy -/

section Policy

variable {k : Nat}

/-- A snapshot the policy covers. -/
def RetentionPolicy.Covers (policy : RetentionPolicy) (nowMs : Int) (snapshots : Snapshots)
    (k : Nat) (snapshot : SnapshotMeta) : Prop :=
  snapshots.AmongNewest (max policy.keepSnapshots 1) k ∨
    nowMs - policy.keepForMs ≤ snapshot.committedAtMs

/-- Every plan retains what the policy covers. -/
theorem Planned.retains {plan : Plan} (planned : Planned bucket.store.snapshots policy nowMs plan)
    (fits : InI64 (nowMs - policy.keepForMs)) (stored : bucket.store.snapshots[k]? = some snapshot)
    (covered : policy.Covers nowMs bucket.store.snapshots k snapshot) : k ∈ plan.retained := by
  rcases covered with newest | recent
  · apply planned.retains_newest _ newest
    rw [← Std.TreeMap.mem_keys]
    exact Snapshots.mem_keys_of_getElem? stored
  · apply planned.retains_recent stored
    unfold RetentionPolicy.cutoffMs
    rw [RetentionPolicy.before_eq fits]
    exact recent

/-- What is too young for every plan. -/
theorem Planned.young {plan : Plan} (planned : Planned bucket.store.snapshots policy nowMs plan)
    (fits : InI64 (nowMs - policy.graceMs)) {modifiedMs : Int}
    (young : nowMs - policy.graceMs < modifiedMs) : plan.graceMs < modifiedMs := by
  rw [planned.graceMs_eq]
  unfold RetentionPolicy.graceCutoffMs
  rw [RetentionPolicy.before_eq fits]
  exact young

end Policy

/-- A sweep over any table, whatever replies it gets and wherever it stops.  What
the policy covers keeps its metadata; the metadata its runs are read from and the
runs that are read are what they were, as are the routing files of these runs and
the data files.  Nothing that was modified inside the grace period is deleted. -/
theorem sweep_keeps_readable {policy : RetentionPolicy} {nowMs : Int}
    (keepForFits : InI64 (nowMs - policy.keepForMs)) (graceFits : InI64 (nowMs - policy.graceMs))
    {bucket : Bucket} (named : bucket.store.snapshots.Named) {replies : List Reply}
    {sweep : Sweep} {after : Bucket}
    (swept : collect policy nowMs replies bucket = some (sweep, after)) :
    (∀ (k : Nat) (snapshot : SnapshotMeta), bucket.store.snapshots[k]? = some snapshot →
      policy.Covers nowMs bucket.store.snapshots k snapshot →
      after.store.snapshots[k]? = some snapshot ∧
      (∀ needed ∈ snapshot.chain,
        after.store.snapshots[needed]? = bucket.store.snapshots[needed]?) ∧
      committedRuns after.store.snapshots snapshot =
        committedRuns bucket.store.snapshots snapshot ∧
      (∀ runs, committedRuns bucket.store.snapshots snapshot = .ok runs → ∀ run ∈ runs,
        after.store.puffins[run.path.uuid]? = bucket.store.puffins[run.path.uuid]?) ∧
      (∀ file ∈ snapshot.dataFiles,
        after.store.data[file.path.uuid]? = bucket.store.data[file.path.uuid]?)) ∧
    (∀ key, nowMs - policy.graceMs < (bucket.objectMeta key).lastModifiedMs →
      bucket.store.Keeps after.store key) ∧
    (∀ k, nowMs - policy.graceMs < bucket.snapshotModifiedMs k →
      after.store.snapshots[k]? = bucket.store.snapshots[k]?) := by
  have trims := trims_collect swept
  refine ⟨fun k snapshot stored covered => ?_, fun key young => ?_, fun k young => ?_⟩
  · have chainKept : ∀ needed ∈ snapshot.chain,
        after.store.snapshots[needed]? = bucket.store.snapshots[needed]? := fun needed link =>
      trims.snapshots needed fun plan planned => Or.inl
        (planned.retains_chain named stored (planned.retains keepForFits stored covered) link)
    -- an object of a retained snapshot is live
    have objectKept : ∀ {j link} (key : ObjectKey), bucket.store.snapshots[j]? = some link →
        (j = k ∨ j ∈ snapshot.chain) → key ∈ link.objects →
        bucket.store.Keeps after.store key := by
      intro j link key stored' origin object
      apply trims.objects
      intro plan planned doomed
      apply doomed.1
      have retained := planned.retains keepForFits stored covered
      rcases origin with rfl | inChain
      · exact planned.mem_live named stored' retained object
      · exact planned.mem_live named stored'
          (planned.retains_chain named stored retained inChain) object
    refine ⟨?_, chainKept, committedRuns_congr chainKept, fun runs read run member => ?_,
      fun file member => ?_⟩
    · rw [trims.snapshots k fun plan planned =>
        Or.inl (planned.retains keepForFits stored covered)]
      exact stored
    · rcases mem_committedRuns read member with listed | own | ⟨j, inChain, link, stored', path⟩
      · exact objectKept ⟨.puffin, run.path.uuid⟩ stored (Or.inl rfl)
          (SnapshotMeta.run_mem_objects listed)
      · rw [own]
        exact objectKept ⟨.puffin, snapshot.puffinPath.uuid⟩ stored (Or.inl rfl)
          snapshot.puffin_mem_objects
      · rw [path]
        exact objectKept ⟨.puffin, link.puffinPath.uuid⟩ stored' (Or.inr inChain)
          link.puffin_mem_objects
    · exact objectKept ⟨.data, file.path.uuid⟩ stored (Or.inl rfl)
        (SnapshotMeta.data_mem_objects member)
  · apply trims.objects
    intro plan planned doomed
    exact absurd (planned.young graceFits young) (not_lt.mpr doomed.2)
  · apply trims.snapshots
    exact fun plan planned => Or.inr (planned.young graceFits young)

/-- A snapshot of the format without runs, committed at time zero. -/
def Script.legacy (sequence baseSequence : Nat) : SnapshotMeta where
  sequence := sequence
  committedAtMs := 0
  watermark := 0
  position := StreamPosition.new
  stream := none
  dataFiles := []
  puffinPath := ⟨sequence, sequence⟩
  committer := "worker"
  baseSequence := baseSequence
  deltaChainLen := sequence - baseSequence
  runs := []
  formatVersion := 0

/-- Three such snapshots with their routing files, all as old as the epoch.  The
third is a delta over the second. -/
def Script.chained : Bucket where
  store :=
    { puffins := ((Std.TreeMap.empty.insert 1 ⟨[], ∅, none⟩).insert 2 ⟨[], ∅, none⟩).insert 3
        ⟨[], ∅, none⟩
      data := ∅
      snapshots := ((Std.TreeMap.empty.insert 1 (Script.legacy 1 1)).insert 2
        (Script.legacy 2 2)).insert 3 (Script.legacy 3 2)
      nextUuid := 4 }
  objectMeta _ := ⟨0, 1⟩
  snapshotModifiedMs _ := 0

theorem Script.named_chained : Script.chained.store.snapshots.Named := by
  intro k snapshot stored
  simp only [Script.chained, Std.TreeMap.getElem?_insert,
    Std.LawfulEqCmp.compare_eq_iff_eq] at stored
  split at stored
  · cases stored
    assumption
  · split at stored
    · cases stored
      assumption
    · split at stored
      · cases stored
        assumption
      · cases stored

/-- A sweep that keeps one snapshot deletes the first one and its file; the second
one is kept for the third. -/
theorem sweep_keeps_readable_chain :
    ∃ (sweep : Sweep) (after : Bucket),
      collect ⟨1, 0, 0⟩ 1000 (List.replicate 9 .done) Script.chained = some (sweep, after) ∧
      1 ∉ after.store.snapshots ∧ 1 ∉ after.store.puffins ∧
      after.store.puffins[2]? = Script.chained.store.puffins[2]? ∧
      committedRuns after.store.snapshots (Script.legacy 3 2) =
        committedRuns Script.chained.store.snapshots (Script.legacy 3 2) := by
  have reaches : (collect ⟨1, 0, 0⟩ 1000 (List.replicate 9 .done) Script.chained).any
      (fun state => decide (1 ∉ state.2.store.snapshots) &&
        decide (1 ∉ state.2.store.puffins)) = true := by decide
  rcases (Option.any_eq_true _ _).mp reaches with ⟨⟨sweep, after⟩, swept, gone⟩
  rw [Bool.and_eq_true, decide_eq_true_eq, decide_eq_true_eq] at gone
  have stored : Script.chained.store.snapshots[3]? = some (Script.legacy 3 2) := rfl
  have keeps := (sweep_keeps_readable (by decide) (by decide) Script.named_chained swept).1 3 _
    stored (Or.inl (by decide))
  refine ⟨sweep, after, swept, gone.1, gone.2, ?_, keeps.2.2.1⟩
  exact keeps.2.2.2.1 _ rfl ⟨⟨2, 2⟩, 0, 2, 2⟩ (by decide)

end Blaze
