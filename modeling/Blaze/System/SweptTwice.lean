import Blaze.System.Retained

/-!
# Sweeping twice

A sweep that gets all its requests through deletes everything that its plan dooms.
What it leaves is planned alike: the newest snapshots, those inside the window and the
chains they pull in are all retained, so they are still there to be found, and nothing
else that is left could add to them.  A second sweep with the same policy at the same
time therefore deletes nothing.
-/

namespace Blaze

open List

variable {store : ObjectStore} {key : ObjectKey} {metas : List SnapshotMeta} {snapshots : Snapshots}
  {policy : RetentionPolicy} {nowMs : Int} {plan : Plan} {folder : Folder}
  {start middle target : Sweep × Bucket} {sequences : List Nat}

/-! ## The newest items -/

/-- In descending items, the first ones of a part that contains them are the same. -/
theorem take_eq_of_subset {items left : List Nat} (descending : items.Pairwise (· > ·))
    (leftDescending : left.Pairwise (· > ·)) (subset : left ⊆ items) {n : Nat}
    (first : items.take n ⊆ left) : left.take n = items.take n := by
  induction n generalizing items left with
  | zero => rfl
  | succ n ih =>
    cases items with
    | nil => rw [subset_nil.mp subset]
    | cons item items =>
      obtain ⟨below, rest⟩ := pairwise_cons.mp descending
      have kept : item ∈ left := first mem_cons_self
      cases left with
      | nil => cases kept
      | cons other left =>
        obtain ⟨leftBelow, leftRest⟩ := pairwise_cons.mp leftDescending
        have same : other = item := by
          rcases mem_cons.mp kept with rfl | later
          · rfl
          · rcases mem_cons.mp (subset mem_cons_self) with same | later'
            · exact same
            · exact absurd (leftBelow item later) (not_lt.mpr (below other later').le)
        subst same
        rw [take_succ_cons, take_succ_cons]
        congr 1
        apply ih rest leftRest
        · intro k member
          rcases mem_cons.mp (subset (mem_cons_of_mem other member)) with
            rfl | inRest
          · exact absurd (leftBelow k member) (lt_irrefl k)
          · exact inRest
        · intro k member
          have inItems := mem_of_mem_take member
          rcases mem_cons.mp (first (mem_cons_of_mem other member)) with
            rfl | inRest
          · exact absurd (below k inItems) (lt_irrefl k)
          · exact inRest

/-! ## Plans -/

section Plans

/-- What was read is what is stored. -/
theorem Snapshots.Read.bySequence_eq (read : snapshots.Read snapshots.keys metas)
    (named : snapshots.Named) (k : Nat) : Plan.bySequence metas k = snapshots[k]? := by
  cases stored : snapshots[k]? with
  | some snapshot => exact read.bySequence named stored
  | none =>
    unfold Plan.bySequence
    rw [find?_eq_none]
    intro snapshot member matched
    obtain ⟨j, -, stored'⟩ := Fallible.exists_related read (mem_reverse.mp member)
    rw [named j snapshot stored', beq_iff_eq] at matched
    rw [matched, stored] at stored'
    cases stored'

/-- The seeds in terms of what is stored. -/
theorem Snapshots.Read.mem_seeds (read : snapshots.Read snapshots.keys metas) (k : Nat) :
    k ∈ Plan.seeds policy nowMs snapshots.keys metas ↔
      k ∈ snapshots.keys.reverse.take (max policy.keepSnapshots 1) ∨
        ∃ snapshot, snapshots[k]? = some snapshot ∧
          policy.cutoffMs nowMs ≤ snapshot.committedAtMs := by
  rw [Plan.mem_seeds]
  apply or_congr_right
  constructor
  · rintro ⟨⟨j, snapshot⟩, member, recent, rfl⟩
    exact ⟨snapshot, (read.mem_zip_iff.mp member).2, recent⟩
  · rintro ⟨snapshot, stored, recent⟩
    have listed := Snapshots.mem_keys_of_getElem? stored
    exact ⟨(k, snapshot), read.mem_zip_iff.mpr ⟨listed, stored⟩, recent, rfl⟩

theorem Snapshots.Read.needs_eq (read : snapshots.Read snapshots.keys metas)
    (named : snapshots.Named) (k : Nat) :
    Plan.needs metas k = ((snapshots[k]?).map SnapshotMeta.chain).getD [] := by
  rw [Plan.needs, read.bySequence_eq named]

/-- What is retained belongs to every set with the seeds that is closed under chains. -/
theorem Plan.retain_least {seeds : List Nat} {p : Nat → Prop} (started : ∀ k ∈ seeds, p k)
    (closed : ∀ k, p k → ∀ needed ∈ Plan.needs metas k, p needed) {k : Nat}
    (retained : k ∈ Plan.retain metas seeds) : p k :=
  Worklist.close_least closed ⟨started, started⟩ k retained

theorem Planned.mem_live_iff (planned : Planned snapshots policy nowMs plan)
    (named : snapshots.Named) (key : ObjectKey) :
    key ∈ plan.live ↔ ∃ k snapshot, snapshots[k]? = some snapshot ∧ k ∈ plan.retained ∧
      key ∈ snapshot.objects := by
  constructor
  · intro live
    obtain ⟨metas, read, rfl⟩ := planned
    change key ∈ Plan.liveObjects metas _ at live
    unfold Plan.liveObjects at live
    rw [mem_dedup, mem_flatMap] at live
    obtain ⟨snapshot, kept, object⟩ := live
    obtain ⟨member, retained⟩ := mem_filter.mp kept
    obtain ⟨k, -, stored⟩ := Fallible.exists_related read member
    rw [contains_iff_mem, named k snapshot stored] at retained
    exact ⟨k, snapshot, stored, retained, object⟩
  · rintro ⟨k, snapshot, stored, retained, object⟩
    exact planned.mem_live named stored retained object

variable {found left : Snapshots} {again : Plan}

/-- A part of the table that has all of what a plan retains has the same seeds. -/
theorem seeds_iff {read' : List SnapshotMeta} (read : found.Read found.keys metas)
    (readLeft : left.Read left.keys read')
    (subset : ∀ (k : Nat) (snapshot : SnapshotMeta), left[k]? = some snapshot →
      found[k]? = some snapshot)
    (kept : ∀ k ∈ Plan.seeds policy nowMs found.keys metas, left[k]? = found[k]?) (k : Nat) :
    k ∈ Plan.seeds policy nowMs left.keys read' ↔
      k ∈ Plan.seeds policy nowMs found.keys metas := by
  have stored : ∀ {snapshots : Snapshots} {k : Nat}, k ∈ snapshots.keys →
      ∃ snapshot, snapshots[k]? = some snapshot := by
    intro snapshots k member
    exact Option.isSome_iff_exists.mp (Std.TreeMap.mem_iff_isSome_getElem?.mp
      (Std.TreeMap.mem_keys.mp member))
  have newest : left.keys.reverse.take (max policy.keepSnapshots 1) =
      found.keys.reverse.take (max policy.keepSnapshots 1) := by
    apply take_eq_of_subset
    · exact pairwise_reverse.mpr found.keys_ascending
    · exact pairwise_reverse.mpr left.keys_ascending
    · intro j member
      obtain ⟨snapshot, held⟩ := stored (mem_reverse.mp member)
      exact mem_reverse.mpr (Snapshots.mem_keys_of_getElem? (subset j snapshot held))
    · intro j member
      obtain ⟨snapshot, held⟩ := stored (mem_reverse.mp (mem_of_mem_take member))
      rw [← kept j ((read.mem_seeds j).mpr (Or.inl member))] at held
      exact mem_reverse.mpr (Snapshots.mem_keys_of_getElem? held)
  rw [readLeft.mem_seeds, newest, read.mem_seeds]
  apply or_congr_right
  constructor
  · rintro ⟨snapshot, held, recent⟩
    exact ⟨snapshot, subset k snapshot held, recent⟩
  · rintro ⟨snapshot, held, recent⟩
    refine ⟨snapshot, ?_, recent⟩
    rw [kept k ((read.mem_seeds k).mpr (Or.inr ⟨snapshot, held, recent⟩))]
    exact held

/-- A plan made from a part of the table that has all of what the first plan retains
retains the same. -/
theorem Planned.retained_iff (planned : Planned found policy nowMs plan)
    (replanned : Planned left policy nowMs again) (named : found.Named)
    (subset : ∀ (k : Nat) (snapshot : SnapshotMeta), left[k]? = some snapshot →
      found[k]? = some snapshot)
    (kept : ∀ k ∈ plan.retained, left[k]? = found[k]?) (k : Nat) :
    k ∈ again.retained ↔ k ∈ plan.retained := by
  have namedLeft : left.Named := fun j snapshot held => named j snapshot (subset j snapshot held)
  obtain ⟨metas, read, rfl⟩ := planned
  obtain ⟨metas', readLeft, rfl⟩ := replanned
  change ∀ k ∈ Plan.retain metas _, _ at kept
  change k ∈ Plan.retain metas' _ ↔ k ∈ Plan.retain metas _
  obtain ⟨seeded, closed⟩ := Plan.retain_spec metas (Plan.seeds policy nowMs found.keys metas)
  obtain ⟨seededLeft, closedLeft⟩ :=
    Plan.retain_spec metas' (Plan.seeds policy nowMs left.keys metas')
  have seeds := seeds_iff read readLeft subset fun j seed => kept j (seeded j seed)
  -- the chains of what is retained are read alike from both tables
  have chains : ∀ j ∈ Plan.retain metas (Plan.seeds policy nowMs found.keys metas),
      Plan.needs metas' j = Plan.needs metas j := by
    intro j retained
    rw [readLeft.needs_eq namedLeft, read.needs_eq named, kept j retained]
  constructor
  · apply Plan.retain_least
    · exact fun j seed => seeded j ((seeds j).mp seed)
    · intro j retained needed link
      rw [chains j retained] at link
      exact closed j retained needed link
  · intro retained
    refine (Plan.retain_least
      (p := fun j => j ∈ Plan.retain metas (Plan.seeds policy nowMs found.keys metas) ∧
        j ∈ Plan.retain metas' (Plan.seeds policy nowMs left.keys metas')) ?_ ?_ retained).2
    · exact fun j seed => ⟨seeded j seed, seededLeft j ((seeds j).mpr seed)⟩
    · rintro j ⟨inFound, inLeft⟩ needed link
      refine ⟨closed j inFound needed link, closedLeft j inLeft needed ?_⟩
      rw [chains j inFound]
      exact link

/-- The two plans keep the same objects. -/
theorem Planned.live_iff (planned : Planned found policy nowMs plan)
    (replanned : Planned left policy nowMs again) (named : found.Named)
    (subset : ∀ (k : Nat) (snapshot : SnapshotMeta), left[k]? = some snapshot →
      found[k]? = some snapshot)
    (kept : ∀ k ∈ plan.retained, left[k]? = found[k]?) (key : ObjectKey) :
    key ∈ again.live ↔ key ∈ plan.live := by
  have namedLeft : left.Named := fun j snapshot held => named j snapshot (subset j snapshot held)
  have retained := planned.retained_iff replanned named subset kept
  rw [planned.mem_live_iff named, replanned.mem_live_iff namedLeft]
  constructor
  · rintro ⟨k, snapshot, held, inAgain, object⟩
    exact ⟨k, snapshot, subset k snapshot held, (retained k).mp inAgain, object⟩
  · rintro ⟨k, snapshot, held, inPlan, object⟩
    rw [← kept k inPlan] at held
    exact ⟨k, snapshot, held, (retained k).mpr inPlan, object⟩

end Plans

/-! ## Objects and deletions -/

namespace ObjectStore

theorem has_delete {other : ObjectKey} :
    (store.delete key).Has other ↔ store.Has other ∧ other ≠ key := by
  rcases key with ⟨folder, uuid⟩
  rcases other with ⟨otherFolder, otherUuid⟩
  cases folder <;> cases otherFolder <;>
    simp [Has, delete, Std.TreeMap.mem_erase, Std.LawfulEqCmp.compare_eq_iff_eq, and_comm,
      @eq_comm _ otherUuid]

theorem has_foldl_delete {doomed : List ObjectKey} :
    (doomed.foldl delete store).Has key ↔ store.Has key ∧ key ∉ doomed := by
  induction doomed generalizing store with
  | nil => simp
  | cons first doomed ih =>
    rw [foldl_cons, ih, has_delete, mem_cons, not_or, and_assoc]

theorem mem_list_iff : key ∈ store.list folder ↔ store.Has key ∧ key.folder = folder := by
  rcases key with ⟨otherFolder, uuid⟩
  cases folder <;> cases otherFolder <;> simp [list, Has]

theorem snapshots_foldl_delete (doomed : List ObjectKey) (store : ObjectStore) :
    (doomed.foldl delete store).snapshots = store.snapshots := by
  induction doomed generalizing store with
  | nil => rfl
  | cons first doomed ih =>
    rw [foldl_cons, ih, snapshots_delete]

end ObjectStore

/-! ## A sweep whose requests all succeed -/

namespace Sweep

variable {bucket : Bucket}

/-- With every request answered, the sweep gets from one state to the other. -/
def Reaches (start target : Sweep × Bucket) : Prop :=
  ∃ n, Execution.run (fun state reply => state.1.step state.2 reply) (List.replicate n .done)
    start = some target

theorem Reaches.refl (state : Sweep × Bucket) : Reaches state state :=
  ⟨0, rfl⟩

theorem Reaches.head (stepped : start.1.step start.2 .done = some middle)
    (rest : Reaches middle target) : Reaches start target := by
  obtain ⟨n, performed⟩ := rest
  refine ⟨n + 1, ?_⟩
  rw [replicate_succ, Execution.run_cons, stepped]
  exact performed

theorem Reaches.trans (first : Reaches start middle) (second : Reaches middle target) :
    Reaches start target := by
  obtain ⟨n, reached⟩ := first
  obtain ⟨m, performed⟩ := second
  refine ⟨n + m, ?_⟩
  rw [replicate_add, Execution.run_append, reached]
  exact performed

/-- All metadata is read. -/
theorem reaches_read {all unread : List Nat} {rest : List SnapshotMeta}
    (read : bucket.store.snapshots.Read unread rest) :
    Reaches (nextRead policy nowMs all metas unread, bucket)
      (nextRead policy nowMs all (metas ++ rest) [], bucket) := by
  induction read generalizing metas with
  | nil =>
    rw [append_nil]
    exact .refl _
  | @cons k snapshot unread rest here _ ih =>
    have got : SnapshotCatalog.get bucket.store.snapshots k = .ok snapshot :=
      SnapshotCatalog.get_eq_ok_iff.mpr here
    have next := @ih (metas ++ [snapshot])
    rw [append_assoc] at next
    refine .head ?_ next
    simp only [nextRead, step, got]

/-- All doomed objects of a folder are deleted. -/
theorem reaches_deleted (plan : Plan) (folder : Folder) (doomed : List ObjectKey)
    (out : Reclaimed) (bucket : Bucket) :
    ∃ out', Reaches (nextObject plan folder doomed out, bucket)
      (nextObject plan folder [] out',
        { bucket with store := doomed.foldl ObjectStore.delete bucket.store }) := by
  induction doomed generalizing out bucket with
  | nil => exact ⟨out, .refl _⟩
  | cons key doomed ih =>
    obtain ⟨out', rest⟩ := ih
      { out with
        objectsDeleted := out.objectsDeleted + 1
        bytesDeleted := out.bytesDeleted + (bucket.objectMeta key).size }
      { bucket with store := bucket.store.delete key }
    exact ⟨out', .head rfl rest⟩

/-- What is left when the metadata that is old enough is expired. -/
structure Expires (plan : Plan) (unseen : List Nat) (bucket after : Bucket) : Prop where
  puffins : after.store.puffins = bucket.store.puffins
  data : after.store.data = bucket.store.data
  objectMeta : after.objectMeta = bucket.objectMeta
  modifiedMs : after.snapshotModifiedMs = bucket.snapshotModifiedMs
  kept : ∀ k, k ∉ unseen → after.store.snapshots[k]? = bucket.store.snapshots[k]?
  subset : ∀ (k : Nat) (snapshot : SnapshotMeta), after.store.snapshots[k]? = some snapshot →
    bucket.store.snapshots[k]? = some snapshot
  young : ∀ k ∈ unseen, k ∈ after.store.snapshots → plan.graceMs < bucket.snapshotModifiedMs k

theorem Expires.refl (plan : Plan) (bucket : Bucket) : Expires plan [] bucket bucket :=
  ⟨rfl, rfl, rfl, rfl, fun _ _ => rfl, fun _ _ stored => stored, by simp⟩

theorem Expires.append {first second : List Nat} {middle after : Bucket}
    (one : Expires plan first bucket middle) (two : Expires plan second middle after) :
    Expires plan (first ++ second) bucket after := by
  refine ⟨two.puffins.trans one.puffins, two.data.trans one.data,
    two.objectMeta.trans one.objectMeta, two.modifiedMs.trans one.modifiedMs, ?_,
    fun k snapshot stored => one.subset k snapshot (two.subset k snapshot stored), ?_⟩
  · intro k unlisted
    rw [mem_append, not_or] at unlisted
    exact (two.kept k unlisted.2).trans (one.kept k unlisted.1)
  intro k member present
  rcases mem_append.mp member with inFirst | inSecond
  · apply one.young k inFirst
    obtain ⟨snapshot, stored⟩ :=
      Option.isSome_iff_exists.mp (Std.TreeMap.mem_iff_isSome_getElem?.mp present)
    exact KeyedMap.mem_of_getElem? (two.subset k snapshot stored)
  · rw [← one.modifiedMs]
    exact two.young k inSecond present

/-- One snapshot that is not retained is kept if it is young, and deleted otherwise. -/
theorem reaches_headed (sequence : Nat) (unseen : List Nat) (out : Reclaimed) :
    ∃ out' after, Reaches (.headSnapshot plan sequence unseen out, bucket)
        (nextSnapshot plan unseen out', after) ∧ Expires plan [sequence] bucket after := by
  have stepped : step bucket .done (.headSnapshot plan sequence unseen out) =
      some (headed bucket plan sequence unseen out, bucket) := rfl
  unfold headed at stepped
  split at stepped
  · split at stepped
    · next young =>
        refine ⟨_, bucket, .head stepped (.refl _), rfl, rfl, rfl, rfl, fun _ _ => rfl,
          fun _ _ stored => stored, ?_⟩
        intro k member _
        rw [mem_singleton.mp member]
        exact young
    · refine ⟨_, _, .head stepped (.head rfl (.refl _)), rfl, rfl, rfl, rfl, ?_, ?_, ?_⟩
      · intro k other
        change (bucket.store.snapshots.erase sequence)[k]? = _
        rw [Std.TreeMap.getElem?_erase, if_neg]
        rw [Std.LawfulEqCmp.compare_eq_iff_eq]
        exact fun same => other (mem_singleton.mpr same.symm)
      · intro k snapshot stored
        change (bucket.store.snapshots.erase sequence)[k]? = some snapshot at stored
        rw [Std.TreeMap.getElem?_erase] at stored
        split at stored
        · cases stored
        · exact stored
      · intro k member present
        change k ∈ bucket.store.snapshots.erase sequence at present
        rw [mem_singleton.mp member] at present
        simp at present
  · next absent =>
      refine ⟨_, bucket, .head stepped (.refl _), rfl, rfl, rfl, rfl, fun _ _ => rfl,
        fun _ _ stored => stored, ?_⟩
      intro k member present
      rw [mem_singleton.mp member] at present
      exact absurd (Std.TreeMap.contains_iff_mem.mpr present) absent

/-- All metadata that is not retained and old enough is deleted. -/
theorem reaches_expired (plan : Plan) (unseen : List Nat) (out : Reclaimed) (bucket : Bucket) :
    ∃ out' after, Reaches (nextSnapshot plan unseen out, bucket) (.returned (.ok out'), after) ∧
      Expires plan unseen bucket after := by
  induction unseen generalizing out bucket with
  | nil => exact ⟨out, bucket, .refl _, .refl plan bucket⟩
  | cons sequence unseen ih =>
    obtain ⟨middle, next, one, expires⟩ := reaches_headed sequence unseen out
    obtain ⟨out', after, rest, more⟩ := ih middle next
    exact ⟨out', after, one.trans rest, expires.append more⟩

/-- Metadata that is all too young is left alone. -/
theorem reaches_young {unseen : List Nat} (out : Reclaimed)
    (young : ∀ k ∈ unseen, k ∈ bucket.store.snapshots →
      plan.graceMs < bucket.snapshotModifiedMs k) :
    ∃ n, Reaches (nextSnapshot plan unseen out, bucket)
      (.returned (.ok { out with objectsTooYoung := n }), bucket) := by
  induction unseen generalizing out with
  | nil => exact ⟨out.objectsTooYoung, .refl _⟩
  | cons sequence unseen ih =>
    obtain ⟨here, rest⟩ := forall_mem_cons.mp young
    have stepped : step bucket .done (.headSnapshot plan sequence unseen out) =
        some (headed bucket plan sequence unseen out, bucket) := rfl
    unfold headed at stepped
    split at stepped
    · next present =>
        rw [if_pos (here (Std.TreeMap.contains_iff_mem.mp present))] at stepped
        obtain ⟨n, reached⟩ := ih _ rest
        exact ⟨n, .head stepped reached⟩
    · obtain ⟨n, reached⟩ := ih out rest
      exact ⟨n, .head stepped reached⟩

/-- Nothing is left that the plan dooms, and nothing is gone that it retains. -/
structure Clears (plan : Plan) (bucket after : Bucket) : Prop where
  objectMeta : after.objectMeta = bucket.objectMeta
  modifiedMs : after.snapshotModifiedMs = bucket.snapshotModifiedMs
  objects : ∀ key, after.store.Has key → ¬ plan.Dooms bucket.objectMeta key
  subset : ∀ (k : Nat) (snapshot : SnapshotMeta), after.store.snapshots[k]? = some snapshot →
    bucket.store.snapshots[k]? = some snapshot
  kept : ∀ k ∈ plan.retained, after.store.snapshots[k]? = bucket.store.snapshots[k]?
  young : ∀ k ∈ after.store.snapshots, k ∈ plan.retained ∨
    plan.graceMs < bucket.snapshotModifiedMs k

theorem reaches_listed (listed : ¬ bucket.store.snapshots.keys.isEmpty = true)
    (read : bucket.store.snapshots.Read bucket.store.snapshots.keys metas) :
    ∃ out, Reaches (.listSnapshots policy nowMs, bucket)
        (.listObjects (Plan.new policy nowMs bucket.store.snapshots.keys metas) .puffin out,
          bucket) ∧
      out.snapshotsExpired = 0 ∧ out.objectsDeleted = 0 ∧ out.bytesDeleted = 0 := by
  have stepped : step bucket .done (.listSnapshots policy nowMs) =
      some (Sweep.listed policy nowMs bucket.store.snapshots.keys, bucket) := rfl
  rw [Sweep.listed, if_neg listed] at stepped
  exact ⟨_, .head stepped (reaches_read read), rfl, rfl, rfl⟩

/-- What a listing of a folder finds unreachable and old enough. -/
def doomedIn (plan : Plan) (bucket : Bucket) (folder : Folder) : List ObjectKey :=
  ((bucket.store.list folder).filter fun key => !plan.live.contains key).filter
    fun key => !decide (plan.graceMs < (bucket.objectMeta key).lastModifiedMs)

theorem mem_doomedIn_iff :
    key ∈ doomedIn plan bucket folder ↔
      (bucket.store.Has key ∧ key.folder = folder) ∧ plan.Dooms bucket.objectMeta key := by
  unfold doomedIn Plan.Dooms
  rw [mem_filter, mem_filter, ObjectStore.mem_list_iff, and_assoc]
  simp

theorem step_listObjects (plan : Plan) (folder : Folder) (out : Reclaimed) (bucket : Bucket) :
    ∃ n, step bucket .done (.listObjects plan folder out) =
      some (nextObject plan folder (doomedIn plan bucket folder)
        { out with objectsTooYoung := n }, bucket) :=
  ⟨_, rfl⟩

/-- A folder is listed, and what is doomed in it is deleted. -/
theorem reaches_swept (plan : Plan) (folder : Folder) (out : Reclaimed) (bucket : Bucket) :
    ∃ out' after, Reaches (.listObjects plan folder out, bucket)
        (nextObject plan folder [] out', after) ∧
      after.objectMeta = bucket.objectMeta ∧
      after.snapshotModifiedMs = bucket.snapshotModifiedMs ∧
      after.store.snapshots = bucket.store.snapshots ∧
      ∀ key, after.store.Has key → bucket.store.Has key ∧
        (key.folder = folder → ¬ plan.Dooms bucket.objectMeta key) := by
  obtain ⟨n, stepped⟩ := step_listObjects plan folder out bucket
  obtain ⟨out', reached⟩ := reaches_deleted plan folder (doomedIn plan bucket folder)
    { out with objectsTooYoung := n } bucket
  refine ⟨out', _, .head stepped reached, rfl, rfl, ObjectStore.snapshots_foldl_delete _ _, ?_⟩
  intro key has
  obtain ⟨present, spared⟩ := ObjectStore.has_foldl_delete.mp has
  exact ⟨present, fun inFolder dooms => spared (mem_doomedIn_iff.mpr ⟨⟨present, inFolder⟩, dooms⟩)⟩

/-- A sweep of a table with snapshots returns, and clears what its plan dooms. -/
theorem reaches_cleared (listed : ¬ bucket.store.snapshots.keys.isEmpty = true)
    (planned : Planned bucket.store.snapshots policy nowMs plan) :
    ∃ out after, Reaches (.listSnapshots policy nowMs, bucket) (.returned (.ok out), after) ∧
      Clears plan bucket after := by
  obtain ⟨metas, read, rfl⟩ := planned
  obtain ⟨out₀, start, -⟩ := reaches_listed listed read
  generalize planEq : Plan.new policy nowMs bucket.store.snapshots.keys metas = plan at *
  have all : plan.all = bucket.store.snapshots.keys := by rw [← planEq]; rfl
  obtain ⟨out₁, first, puffins, meta₁, modified₁, snapshots₁, left₁⟩ :=
    reaches_swept plan .puffin out₀ bucket
  obtain ⟨out₂, second, data, meta₂, modified₂, snapshots₂, left₂⟩ :=
    reaches_swept plan .data out₁ first
  obtain ⟨out₃, after, last, expires⟩ := reaches_expired plan
    (plan.all.filter fun sequence => !plan.retained.contains sequence) out₂ second
  rw [snapshots₁] at snapshots₂
  rw [meta₁] at left₂ meta₂
  rw [modified₁] at modified₂
  refine ⟨out₃, after, start.trans (puffins.trans (data.trans last)), ?_⟩
  constructor
  · exact expires.objectMeta.trans meta₂
  · exact expires.modifiedMs.trans modified₂
  · intro key has
    have kept : second.store.Has key := by
      unfold ObjectStore.Has at has ⊢
      rwa [expires.puffins, expires.data] at has
    obtain ⟨inFirst, sparedData⟩ := left₂ key kept
    cases folder : key.folder with
    | puffin => exact (left₁ key inFirst).2 folder
    | data => exact sparedData folder
  · intro k snapshot stored
    rw [← snapshots₂]
    exact expires.subset k snapshot stored
  · intro k retained
    rw [← snapshots₂]
    apply expires.kept
    simp [retained]
  · intro k present
    by_cases retained : k ∈ plan.retained
    · exact Or.inl retained
    · right
      rw [← modified₂]
      refine expires.young k ?_ present
      obtain ⟨snapshot, stored⟩ :=
        Option.isSome_iff_exists.mp (Std.TreeMap.mem_iff_isSome_getElem?.mp present)
      have listed := Snapshots.mem_keys_of_getElem? (expires.subset k snapshot stored)
      rw [snapshots₂, ← all] at listed
      simp [listed, retained]

/-- A sweep of a table in which its plan dooms nothing returns without deleting. -/
theorem reaches_quiet (listed : ¬ bucket.store.snapshots.keys.isEmpty = true)
    (planned : Planned bucket.store.snapshots policy nowMs plan)
    (objects : ∀ key, bucket.store.Has key → ¬ plan.Dooms bucket.objectMeta key)
    (young : ∀ k ∈ bucket.store.snapshots, k ∈ plan.retained ∨
      plan.graceMs < bucket.snapshotModifiedMs k) :
    ∃ out, Reaches (.listSnapshots policy nowMs, bucket) (.returned (.ok out), bucket) ∧
      out.snapshotsExpired = 0 ∧ out.objectsDeleted = 0 ∧ out.bytesDeleted = 0 := by
  obtain ⟨metas, read, rfl⟩ := planned
  obtain ⟨out₀, start, zero⟩ := reaches_listed listed read
  generalize planEq : Plan.new policy nowMs bucket.store.snapshots.keys metas = plan at *
  have folders : ∀ folder (out : Reclaimed), ∃ n,
      Reaches (.listObjects plan folder out, bucket)
        (nextObject plan folder [] { out with objectsTooYoung := n }, bucket) := by
    intro folder out
    obtain ⟨n, stepped⟩ := step_listObjects plan folder out bucket
    have nothing : doomedIn plan bucket folder = [] := by
      rw [eq_nil_iff_forall_not_mem]
      intro key member
      obtain ⟨⟨present, -⟩, dooms⟩ := mem_doomedIn_iff.mp member
      exact objects key present dooms
    rw [nothing] at stepped
    exact ⟨n, .head stepped (.refl _)⟩
  obtain ⟨n, puffins⟩ := folders .puffin out₀
  obtain ⟨m, data⟩ := folders .data { out₀ with objectsTooYoung := n }
  have expired : ∀ k ∈ plan.all.filter fun sequence => !plan.retained.contains sequence,
      k ∈ bucket.store.snapshots → plan.graceMs < bucket.snapshotModifiedMs k := by
    intro k member present
    have dropped := (mem_filter.mp member).2
    exact (young k present).resolve_left (by simpa using dropped)
  obtain ⟨l, last⟩ := reaches_young { out₀ with objectsTooYoung := m } expired
  exact ⟨_, start.trans (puffins.trans (data.trans last)), zero⟩

end Sweep

/-! ## Twice -/

theorem Snapshots.exists_read (present : ∀ k ∈ sequences, k ∈ snapshots) :
    ∃ metas, snapshots.Read sequences metas := by
  induction sequences with
  | nil => exact ⟨[], .nil⟩
  | cons k sequences ih =>
    obtain ⟨here, rest⟩ := forall_mem_cons.mp present
    obtain ⟨snapshot, stored⟩ :=
      Option.isSome_iff_exists.mp (Std.TreeMap.mem_iff_isSome_getElem?.mp here)
    obtain ⟨metas, read⟩ := ih rest
    exact ⟨snapshot :: metas, .cons stored read⟩

theorem Snapshots.Read.unique {metas' : List SnapshotMeta} (read : snapshots.Read sequences metas)
    (again : snapshots.Read sequences metas') : metas = metas' := by
  induction read generalizing metas' with
  | nil =>
    cases again
    rfl
  | cons here _ ih =>
    cases again with
    | cons here' rest =>
      rw [here] at here'
      cases here'
      rw [ih rest]

theorem exists_planned (snapshots : Snapshots) (policy : RetentionPolicy) (nowMs : Int) :
    ∃ plan, Planned snapshots policy nowMs plan := by
  obtain ⟨metas, read⟩ := Snapshots.exists_read fun k member => Std.TreeMap.mem_keys.mp member
  exact ⟨_, metas, read, rfl⟩

theorem Planned.unique {policy : RetentionPolicy} {nowMs : Int} {again : Plan}
    (planned : Planned snapshots policy nowMs plan)
    (replanned : Planned snapshots policy nowMs again) : plan = again := by
  obtain ⟨metas, read, rfl⟩ := planned
  obtain ⟨metas', read', rfl⟩ := replanned
  rw [read.unique read']

/-- Nothing is done on an empty catalog. -/
theorem collect_empty (policy : RetentionPolicy) (nowMs : Int) {bucket : Bucket}
    (empty : bucket.store.snapshots.keys.isEmpty = true) :
    collect policy nowMs (List.replicate 1 .done) bucket =
      some (.returned (.ok .default), bucket) := by
  change some (Sweep.listed policy nowMs bucket.store.snapshots.keys, bucket) = _
  rw [Sweep.listed, if_pos empty]

/-- A sweep all of whose requests succeed returns; after it a second one with the same
policy at the same time returns too, leaves everything as it is, and retains the same
of the snapshots that are there. -/
theorem second_sweep_deletes_nothing (policy : RetentionPolicy) (nowMs : Int) {bucket : Bucket}
    (named : bucket.store.snapshots.Named) :
    ∃ n out after,
      collect policy nowMs (List.replicate n .done) bucket = some (.returned (.ok out), after) ∧
      (∃ m again,
        collect policy nowMs (List.replicate m .done) after =
          some (.returned (.ok again), after) ∧
        again.snapshotsExpired = 0 ∧ again.objectsDeleted = 0 ∧ again.bytesDeleted = 0) ∧
      ∀ plan again, Planned bucket.store.snapshots policy nowMs plan →
        Planned after.store.snapshots policy nowMs again →
        ∀ k ∈ after.store.snapshots, k ∈ again.retained ↔ k ∈ plan.retained := by
  obtain ⟨plan, planned⟩ := exists_planned bucket.store.snapshots policy nowMs
  by_cases listed : bucket.store.snapshots.keys.isEmpty = true
  · have returns := collect_empty policy nowMs listed
    refine ⟨1, _, bucket, returns, ⟨1, _, returns, rfl, rfl, rfl⟩, ?_⟩
    intro plan again planned replanned k _
    rw [planned.unique replanned]
  · obtain ⟨out, after, ⟨n, swept⟩, clears⟩ := Sweep.reaches_cleared listed planned
    obtain ⟨again, replanned⟩ := exists_planned after.store.snapshots policy nowMs
    have retained := planned.retained_iff replanned named clears.subset clears.kept
    have live := planned.live_iff replanned named clears.subset clears.kept
    have grace : again.graceMs = plan.graceMs := replanned.graceMs_eq.trans planned.graceMs_eq.symm
    refine ⟨n, out, after, swept, ?_, ?_⟩
    · by_cases listedAgain : after.store.snapshots.keys.isEmpty = true
      · exact ⟨1, _, collect_empty policy nowMs listedAgain, rfl, rfl, rfl⟩
      · have objects : ∀ key, after.store.Has key → ¬ again.Dooms after.objectMeta key := by
          intro key has dooms
          rw [clears.objectMeta, Plan.Dooms, live, grace] at dooms
          exact clears.objects key has dooms
        have young : ∀ k ∈ after.store.snapshots, k ∈ again.retained ∨
            again.graceMs < after.snapshotModifiedMs k := by
          intro k present
          rw [retained, grace, clears.modifiedMs]
          exact clears.young k present
        obtain ⟨result, ⟨m, quiet⟩, zero⟩ := Sweep.reaches_quiet listedAgain replanned objects young
        exact ⟨m, result, quiet, zero⟩
    · intro plan' again' planned' replanned' k _
      rw [planned'.unique planned, replanned'.unique replanned]
      exact retained k

/-- Three chained snapshots and a policy that keeps the newest: after one sweep a second
one deletes nothing. -/
theorem second_sweep_deletes_nothing_chained :
    Script.chained.store.snapshots.Named ∧
      ∃ n out after,
        collect ⟨1, 0, 0⟩ 1000 (List.replicate n .done) Script.chained =
          some (.returned (.ok out), after) ∧
        ∃ m again,
          collect ⟨1, 0, 0⟩ 1000 (List.replicate m .done) after =
            some (.returned (.ok again), after) ∧ again.snapshotsExpired = 0 := by
  obtain ⟨n, out, after, swept, ⟨m, again, quiet, zero, -⟩, -⟩ :=
    second_sweep_deletes_nothing ⟨1, 0, 0⟩ 1000 Script.named_chained
  exact ⟨Script.named_chained, n, out, after, swept, m, again, quiet, zero⟩

end Blaze
