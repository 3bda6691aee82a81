import Blaze.System.Retained

/-!
# The catalog under retention

Commits number the snapshots densely, and a catalog instance that has observed a
sequence probes forward from there.  Sweeps delete metadata, so that the sequences
that are left are not dense any more.  The newest snapshot always survives; an
instance finds it exactly when nothing is missing between what it has observed
last and the newest snapshot.
-/

namespace Blaze

/-- The table, a sweep over it, the snapshots that were committed with the newest
one first, and what each catalog instance has observed. -/
structure CatalogHistory where
  bucket : Bucket
  sweep : Sweep
  committed : List SnapshotMeta
  cachedSeq : Nat → Nat

/-- Steps of a history: an instance commits the next snapshot or asks for the
latest one, and sweeps run one after the other. -/
inductive CatalogAct where
  | commit (reader : Nat) (snapshot : SnapshotMeta) (modifiedMs : Int)
  | latest (reader : Nat)
  | startSweep (policy : RetentionPolicy) (nowMs : Int)
  | sweep (reply : Reply)

namespace CatalogHistory

def init : CatalogHistory where
  bucket := ⟨ObjectStore.empty, fun _ => ⟨0, 0⟩, fun _ => 0⟩
  sweep := .returned (.ok Reclaimed.default)
  committed := []
  cachedSeq _ := 0

/-- An instance remembers the highest sequence it has observed. -/
def observe (history : CatalogHistory) (reader sequence : Nat) : CatalogHistory :=
  { history with
    cachedSeq := Function.update history.cachedSeq reader
      (max (history.cachedSeq reader) sequence) }

/-- The next snapshot is published at the given time. -/
def publish (history : CatalogHistory) (snapshot : SnapshotMeta) (modifiedMs : Int) :
    CatalogHistory :=
  { history with
    bucket :=
      { history.bucket with
        store := history.bucket.store.commit snapshot
        snapshotModifiedMs := Function.update history.bucket.snapshotModifiedMs
          snapshot.sequence modifiedMs }
    committed := snapshot :: history.committed }

def step (history : CatalogHistory) : CatalogAct → Option CatalogHistory
  | .commit reader snapshot modifiedMs =>
      if snapshot.sequence = history.committed.length + 1 then
        some ((history.publish snapshot modifiedMs).observe reader snapshot.sequence)
      else
        none
  | .latest reader =>
      some (history.observe reader
        (SnapshotCatalog.latest history.bucket.store.snapshots (history.cachedSeq reader)).1)
  | .startSweep policy nowMs =>
      match history.sweep with
      | .returned _ => some { history with sweep := .listSnapshots policy nowMs }
      | _ => none
  | .sweep reply =>
      (history.sweep.step history.bucket reply).map fun next =>
        { history with sweep := next.1, bucket := next.2 }

def run (acts : List CatalogAct) : Option CatalogHistory :=
  Execution.run step acts init

/-! ## The invariant -/

/-- The sweep works from metadata of this table. -/
def Sweeping (count : Nat) (bucket : Bucket) (sweep : Sweep) : Prop :=
  (∃ policy nowMs, sweep = .listSnapshots policy nowMs) ∨
    ∃ found policy nowMs, sweep.Sound found policy nowMs bucket ∧ ∀ k ∈ found, k ≤ count

/-- Snapshots are stored under their own sequence, the newest one is there, and no
instance has observed more than was committed. -/
structure Ok (history : CatalogHistory) : Prop where
  named : history.bucket.store.snapshots.Named
  positive : ∀ k ∈ history.bucket.store.snapshots, k ≠ 0
  top : ∀ k ∈ history.bucket.store.snapshots, k ≤ history.committed.length
  newest : history.bucket.store.snapshots[history.committed.length]? = history.committed.head?
  observed : ∀ reader, history.cachedSeq reader ≤ history.committed.length
  sweeping : Sweeping history.committed.length history.bucket history.sweep

theorem ok_init : init.Ok where
  named k snapshot stored := by simp [init, ObjectStore.empty] at stored
  positive k member := by simp [init, ObjectStore.empty] at member
  top k member := by simp [init, ObjectStore.empty] at member
  newest := by simp [init, ObjectStore.empty]
  observed _ := le_rfl
  sweeping := Or.inr ⟨∅, ⟨0, 0, 0⟩, 0, trivial, by simp⟩

variable {history next : CatalogHistory}

theorem Ok.observe (ok : history.Ok) (reader : Nat) {sequence : Nat}
    (bound : sequence ≤ history.committed.length) : (history.observe reader sequence).Ok := by
  refine ⟨ok.named, ok.positive, ok.top, ok.newest, fun other => ?_, ok.sweeping⟩
  change Function.update history.cachedSeq reader _ other ≤ _
  by_cases same : other = reader
  · rw [same, Function.update_self]
    exact max_le (ok.observed reader) bound
  · rw [Function.update_of_ne same]
    exact ok.observed other

theorem Ok.publish (ok : history.Ok) {snapshot : SnapshotMeta}
    (isNext : snapshot.sequence = history.committed.length + 1) (modifiedMs : Int) :
    (history.publish snapshot modifiedMs).Ok := by
  have free : snapshot.sequence ∉ history.bucket.store.snapshots := by
    intro taken
    have bound := ok.top _ taken
    omega
  have inserted : (history.publish snapshot modifiedMs).bucket.store.snapshots =
      history.bucket.store.snapshots.insert snapshot.sequence snapshot := by
    change (SnapshotCatalog.commit _ snapshot).1 = _
    rw [SnapshotCatalog.commit_of_not_mem free]
  have stored : ∀ k, (history.publish snapshot modifiedMs).bucket.store.snapshots[k]? =
      if snapshot.sequence = k then some snapshot else history.bucket.store.snapshots[k]? := by
    intro k
    rw [inserted, Std.TreeMap.getElem?_insert]
    simp only [Std.LawfulEqCmp.compare_eq_iff_eq]
  refine ⟨fun k held found => ?_, fun k member => ?_, fun k member => ?_, ?_, fun reader => ?_, ?_⟩
  · rw [stored] at found
    split at found
    · next same =>
        cases found
        exact same
    · exact ok.named k held found
  · rw [inserted, Std.TreeMap.mem_insert, Std.LawfulEqCmp.compare_eq_iff_eq] at member
    rcases member with same | old
    · omega
    · exact ok.positive k old
  · rw [inserted, Std.TreeMap.mem_insert, Std.LawfulEqCmp.compare_eq_iff_eq] at member
    change k ≤ history.committed.length + 1
    rcases member with same | old
    · omega
    · exact (ok.top k old).trans (Nat.le_succ _)
  · change _ = some snapshot
    rw [stored]
    exact if_pos isNext
  · exact (ok.observed reader).trans (Nat.le_succ _)
  · rcases ok.sweeping with unlisted | ⟨found, policy, nowMs, sound, bound⟩
    · exact Or.inl unlisted
    · refine Or.inr ⟨found, policy, nowMs, ?_, fun k member => (bound k member).trans
        (Nat.le_succ _)⟩
      -- the sweep has not found what is published now
      have apart : ∀ k ∈ found, snapshot.sequence ≠ k := by
        intro k member same
        have limit := bound k member
        omega
      apply sound.mono
      · intro k member held old
        rw [stored, if_neg (apart k member)]
        exact old
      · exact fun _ _ _ _ _ _ _ _ => rfl
      · intro k member
        exact Function.update_of_ne (apart k member).symm _ _

/-- A step of a sweep leaves the newest snapshot. -/
theorem Ok.swept (ok : history.Ok) {reply : Reply} {sweep : Sweep} {bucket : Bucket}
    (stepped : history.sweep.step history.bucket reply = some (sweep, bucket)) :
    Ok { history with sweep, bucket } := by
  rcases ok.sweeping with ⟨policy, nowMs, starts⟩ | ⟨found, policy, nowMs, sound, bound⟩
  · rw [starts] at stepped
    have lists : bucket = history.bucket ∧
        Sweeping history.committed.length history.bucket sweep := by
      cases reply <;> cases stepped
      · exact ⟨rfl, Or.inr ⟨_, policy, nowMs, Sweep.sound_listed policy nowMs _, ok.top⟩⟩
      · exact ⟨rfl, Or.inr ⟨∅, policy, nowMs, trivial, by simp⟩⟩
      · exact ⟨rfl, Or.inr ⟨∅, policy, nowMs, trivial, by simp⟩⟩
    rcases lists with ⟨rfl, sweeping⟩
    exact ⟨ok.named, ok.positive, ok.top, ok.newest, ok.observed, sweeping⟩
  · rcases sound.step stepped with ⟨sound', swept⟩
    have kept : ∀ k ∈ bucket.store.snapshots, k ∈ history.bucket.store.snapshots := fun _ =>
      KeyedMap.mem_of_holds fun _ _ stored => swept.snapshots_subset stored
    refine ⟨fun k snapshot stored => ok.named k snapshot (swept.snapshots_subset stored),
      fun k member => ok.positive k (kept k member), fun k member => ok.top k (kept k member), ?_,
      ok.observed, Or.inr ⟨found, policy, nowMs, sound', bound⟩⟩
    change bucket.store.snapshots[_]? = _
    rw [swept.newest bound]
    exact ok.newest

theorem ok_step {act : CatalogAct} (ok : history.Ok) (stepped : history.step act = some next) :
    next.Ok := by
  cases act with
  | commit reader snapshot modifiedMs =>
    simp only [step] at stepped
    split at stepped
    · next isNext =>
        cases stepped
        exact (ok.publish isNext modifiedMs).observe reader isNext.le
    · cases stepped
  | latest reader =>
    cases stepped
    exact ok.observe reader (SnapshotCatalog.latest_fst_le ok.top (ok.observed reader))
  | startSweep policy nowMs =>
    simp only [step] at stepped
    split at stepped
    · cases stepped
      exact ⟨ok.named, ok.positive, ok.top, ok.newest, ok.observed, Or.inl ⟨policy, nowMs, rfl⟩⟩
    · cases stepped
  | sweep reply =>
    rcases Option.map_eq_some_iff.mp stepped with ⟨⟨sweep, bucket⟩, swept, rfl⟩
    exact ok.swept swept

theorem ok_run {acts : List CatalogAct} (performed : run acts = some history) : history.Ok :=
  Execution.run_invariant_of_step Ok (fun _ _ _ ok stepped => ok_step ok stepped) ok_init performed

end CatalogHistory

/-- Whatever was committed and swept before, `latest` returns the newest committed
snapshot to an instance exactly when the instance has not observed anything yet, or
no sequence is missing above the one it has observed last. -/
theorem latest_newest_iff {acts : List CatalogAct} {history : CatalogHistory}
    (performed : CatalogHistory.run acts = some history) (reader : Nat) :
    (SnapshotCatalog.latest history.bucket.store.snapshots (history.cachedSeq reader)).2 =
        .ok history.committed.head? ↔
      history.cachedSeq reader = 0 ∨ ∀ k, history.cachedSeq reader < k →
        k ≤ history.committed.length → k ∈ history.bucket.store.snapshots := by
  have ok := CatalogHistory.ok_run performed
  have newest := ok.newest
  have observed := ok.observed reader
  cases committed : history.committed with
  | nil =>
      -- nothing is committed, and nothing can have been observed
      have top := ok.top
      rw [committed, List.length_nil] at top observed
      have cold : history.cachedSeq reader = 0 := Nat.le_zero.mp observed
      have empty : SnapshotCatalog.scanLatestSeq history.bucket.store.snapshots = 0 :=
        Nat.le_zero.mp (SnapshotCatalog.scanLatestSeq_le_iff.mpr top)
      simp [SnapshotCatalog.latest, SnapshotCatalog.latestSeq, cold, empty]
  | cons snapshot older =>
      have top := ok.top
      rw [committed] at newest observed top
      exact SnapshotCatalog.latest_eq_newest_iff newest (Nat.succ_ne_zero _) ok.named top observed

/-- Snapshot 1 is committed and observed by instance 0; instance 1 commits two more.
A sweep of so many requests keeps the newest snapshot and what was committed within 50
milliseconds. -/
def Script.history (committedAtMs : Int) (requests : Nat) : List CatalogAct :=
  [.commit 1 { Script.legacy 1 1 with committedAtMs } 0, .latest 0,
    .commit 1 (Script.legacy 2 2) 0, .commit 1 (Script.legacy 3 3) 0,
    .startSweep ⟨1, 50, 0⟩ 100] ++ List.replicate requests (.sweep .done)

/-- The sequence of the snapshot an instance is given. -/
def CatalogHistory.latestSequence (history : CatalogHistory) (reader : Nat) :
    Except String (Option Nat) :=
  (SnapshotCatalog.latest history.bucket.store.snapshots (history.cachedSeq reader)).2.map
    (Option.map SnapshotMeta.sequence)

/-- If the first snapshot carries a time inside the window, it is retained and the
second one is not: instance 0 gets the first snapshot as the latest one.  If not,
the first two are deleted, and instance 0 gets an error. -/
theorem latest_stale_or_missing :
    (∃ history, CatalogHistory.run (Script.history 100 8) = some history ∧
      history.committed.length = 3 ∧ history.latestSequence 0 = .ok (some 1)) ∧
    ∃ history, CatalogHistory.run (Script.history 0 10) = some history ∧
      history.committed.length = 3 ∧ history.latestSequence 0 = .error "object not found" := by
  have stale : (CatalogHistory.run (Script.history 100 8)).any (fun history =>
      decide (history.committed.length = 3 ∧ history.latestSequence 0 = .ok (some 1))) = true := by
    decide
  have missing : (CatalogHistory.run (Script.history 0 10)).any (fun history =>
      decide (history.committed.length = 3 ∧
        history.latestSequence 0 = .error "object not found")) = true := by
    decide
  rcases (Option.any_eq_true _ _).mp stale with ⟨first, performed, returns⟩
  rcases (Option.any_eq_true _ _).mp missing with ⟨second, performed', fails⟩
  exact ⟨⟨first, performed, of_decide_eq_true returns⟩,
    ⟨second, performed', of_decide_eq_true fails⟩⟩

/-- An instance that asks for the first time after the sweep gets the newest
snapshot. -/
theorem latest_newest_iff_cold :
    ∃ history, CatalogHistory.run (Script.history 100 8) = some history ∧
      2 ∉ history.bucket.store.snapshots ∧
      (SnapshotCatalog.latest history.bucket.store.snapshots (history.cachedSeq 7)).2 =
        .ok history.committed.head? := by
  refine Execution.exists_of_any (fun history => decide (2 ∉ history.bucket.store.snapshots ∧
    history.cachedSeq 7 = 0)) (by decide) fun history performed cold => ?_
  rcases of_decide_eq_true cold with ⟨swept, cold⟩
  exact ⟨swept, (latest_newest_iff performed 7).mpr (Or.inl cold)⟩

end Blaze
