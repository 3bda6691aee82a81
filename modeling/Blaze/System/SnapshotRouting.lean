import Blaze.System.Routing

/-!
# What a snapshot routes

A worker that starts from a snapshot skips every record its position covers, and
takes their edges from the snapshot's routing files.  The files have them as long
as everyone who commits keeps up with the catalog; a worker that is behind on
some partition commits a position that covers records its own files lack.
-/

namespace Blaze

open Execution Script

/-- The routing state a worker with this configuration starts from. -/
def assemble (config : FlusherConfig) (store : ObjectStore) (snapshot : SnapshotMeta) :
    Except String (ScopedForest LayeredBase) :=
  if config.diskMode then do
    let (base, _) ← openBase store snapshot
    return newForest config (ScopedForest.withBase base)
  else do
    let runs ← committedRuns store.snapshots snapshot
    let files ← fetchRuns store runs
    return hydrateAll (newForest config ScopedForest.new) files

/-- A snapshot whose files are there can be opened. -/
theorem SnapshotMeta.Assembles.openBase_ok {store : ObjectStore} {snapshot : SnapshotMeta}
    (assembles : snapshot.Assembles) {files : List PuffinBase}
    (serves : store.Serves (snapshot.assembled.map RunMeta.path) files) :
    ∃ base layers, openBase store snapshot = .ok (base, layers) ∧ base.layers = files := by
  have nonempty : files ≠ [] := by
    rintro rfl
    have none := List.forall₂_nil_right_iff.mp serves
    rw [List.map_eq_nil_iff] at none
    exact snapshot.assembled_ne_nil none
  refine ⟨⟨files, nonempty⟩, ⟨⟨files, nonempty⟩,
    snapshot.assembled.map fun run => LocalRun.committed run (.cached run)⟩, ?_, rfl⟩
  unfold openBase
  rw [assembles.committedRuns]
  simp only [bind, Except.bind]
  rw [fetchRuns_eq_ok_iff.mpr serves]
  dsimp only
  rw [fromLayers_of_ne_nil nonempty]
  rfl

/-- A snapshot whose files hold its records can be assembled in either mode. -/
theorem SnapshotMeta.Routed.assemble {log : Log} {bound : Set EdgeEvent} {store : ObjectStore}
    {snapshot : SnapshotMeta} (routed : snapshot.Routed log bound store)
    (assembles : snapshot.Assembles) (config : FlusherConfig) :
    ∃ forest events, Blaze.assemble config store snapshot = .ok forest ∧ forest.OnDisk events ∧
      log.upto snapshot.streamPosition.get ⊆ events ∧ events ⊆ bound := by
  rcases routed with ⟨files, events, serves, routes, covers, within⟩
  unfold Blaze.assemble
  cases config.diskMode with
  | true =>
    rcases assembles.openBase_ok serves with ⟨base, layers, mapped, rfl⟩
    rw [mapped]
    refine ⟨_, events, rfl, ?_, covers, within⟩
    rw [ScopedForest.onDisk_iff_routes (tier_newForest_withBase config _)]
    exact routes
  | false =>
    rw [assembles.committedRuns]
    simp only [bind, Except.bind]
    rw [fetchRuns_eq_ok_iff.mpr serves]
    exact ⟨_, events, rfl, onDisk_hydrateAll (tier_newForest_new config) routes, covers, within⟩

/-- As long as every worker that commits keeps up, every committed snapshot can be
assembled in either mode, and what is assembled connects, in every scope that sees
it, each record the snapshot's position covers. -/
theorem snapshot_connects_covered {log : Log} {config : Nat → FlusherConfig}
    {actions : List Action} {s : System} (performed : System.run log config actions = some s)
    (starts : Allowed (System.step log config) System.StartsHydrated actions
      System.init)
    (keepUp : Allowed (System.step log config) System.KeepsUp actions System.init)
    {k : Nat} {snapshot : SnapshotMeta} (committed : s.store.snapshots[k]? = some snapshot)
    (reader : FlusherConfig) :
    ∃ forest, assemble reader s.store snapshot = .ok forest ∧
      ∀ p o event scope, log.record p o = some event → o ≤ snapshot.streamPosition.get p →
        event.visibility.VisibleIn scope →
        (forest.connected scope event.src event.dst).2 = true := by
  rcases System.routed_run performed starts keepUp with ⟨runs, -, holds⟩
  rcases (holds.shared k snapshot committed).assemble (runs.2.shared k snapshot committed) reader
    with ⟨forest, events, assembled, onDisk, covers, -⟩
  refine ⟨forest, assembled, fun p o event scope stored below visible => ?_⟩
  rw [onDisk.represents.connected_iff]
  exact reachable_of_event (covers ⟨p, o, stored, below⟩) visible

/-- The record the first worker of the script below consumes. -/
def Script.firstEvent : EdgeEvent :=
  { src := 1, dst := 2, visibility := .global, eventTimeMs := 0, props := none }

/-- Worker 0 has consumed partition 0 and commits; worker 1 has consumed partition
1 and commits next.  The second snapshot covers the record of partition 0, and
does not connect it. -/
theorem covered_record_unconnected :
    ∃ (s : System) (snapshot : SnapshotMeta) (forest : ScopedForest LayeredBase),
      System.run (lines 1) (fun _ => worker true)
          (boot 0 ++ boot 1 ++ ingest 0 0 1 ++ lead 0 4 ++
            ingest 1 1 1 ++ lead 1 4) = some s ∧
        Allowed (System.step (lines 1) fun _ => worker true)
          System.StartsHydrated
          (boot 0 ++ boot 1 ++ ingest 0 0 1 ++ lead 0 4 ++
            ingest 1 1 1 ++ lead 1 4) System.init ∧
        s.store.snapshots[2]? = some snapshot ∧
        assemble (worker true) s.store snapshot = .ok forest ∧
        (lines 1).record 0 1 = some firstEvent ∧
        1 ≤ snapshot.streamPosition.get 0 ∧
        firstEvent.visibility.VisibleIn globalScope ∧
        (forest.connected globalScope firstEvent.src firstEvent.dst).2 = false := by
  have reaches : (System.run (lines 1) (fun _ => worker true)
      (boot 0 ++ boot 1 ++ ingest 0 0 1 ++ lead 0 4 ++
        ingest 1 1 1 ++ lead 1 4)).any (fun s =>
      s.store.snapshots[2]?.any fun snapshot =>
        decide (1 ≤ snapshot.streamPosition.get 0) &&
        (assemble (worker true) s.store snapshot).toOption.any fun forest =>
          !(forest.connected globalScope firstEvent.src
            firstEvent.dst).2) = true := by
    decide
  rcases (Option.any_eq_true _ _).mp reaches with ⟨s, performed, rest⟩
  rcases (Option.any_eq_true _ _).mp rest with ⟨snapshot, stored, rest⟩
  rw [Bool.and_eq_true, decide_eq_true_eq] at rest
  rcases rest with ⟨covered, rest⟩
  rcases (Option.any_eq_true _ _).mp rest with ⟨forest, opened, apart⟩
  have assembled : assemble (worker true) s.store snapshot = .ok forest := by
    cases result : assemble (worker true) s.store snapshot <;> rw [result] at opened <;>
      cases opened
    rfl
  exact ⟨s, snapshot, forest, performed, by decide, stored, assembled, by decide, covered,
    by decide, by simpa using apart⟩

/-- Worker 1 boots from the snapshot of worker 0 and commits above it. -/
theorem snapshot_connects_covered_after_handover :
    ∃ (s : System) (snapshot : SnapshotMeta) (forest : ScopedForest LayeredBase),
      System.run (lines 1) (fun _ => worker true)
          (boot 0 ++ ingest 0 0 1 ++ lead 0 4 ++ boot 1 ++
            ingest 1 1 1 ++ lead 1 4) = some s ∧
        s.store.snapshots[2]? = some snapshot ∧ 1 ≤ snapshot.streamPosition.get 0 ∧
        assemble (worker false) s.store snapshot = .ok forest ∧
        (forest.connected globalScope 1 2).2 = true := by
  have reaches : (System.run (lines 1) (fun _ => worker true)
      (boot 0 ++ ingest 0 0 1 ++ lead 0 4 ++ boot 1 ++
        ingest 1 1 1 ++ lead 1 4)).any (fun s =>
      s.store.snapshots[2]?.any fun snapshot =>
        decide (1 ≤ snapshot.streamPosition.get 0)) = true := by
    decide
  rcases (Option.any_eq_true _ _).mp reaches with ⟨s, performed, rest⟩
  rcases (Option.any_eq_true _ _).mp rest with ⟨snapshot, stored, covered⟩
  rw [decide_eq_true_eq] at covered
  rcases snapshot_connects_covered performed (by decide) (by decide) stored
    (worker false) with ⟨forest, assembled, connects⟩
  exact ⟨s, snapshot, forest, performed, stored, covered, assembled,
    connects 0 1 firstEvent globalScope (by decide) covered (by decide)⟩

/-! ## Snapshots stay what they are -/

/-- Only the snapshot's own files matter. -/
theorem SnapshotMeta.Assembles.assemble_grows {store store' : ObjectStore} {files : List PuffinBase}
    {snapshot : SnapshotMeta} (assembles : snapshot.Assembles) (grows : store.Grows store')
    (serves : store.Serves (snapshot.assembled.map RunMeta.path) files) (reader : FlusherConfig) :
    assemble reader store' snapshot = assemble reader store snapshot := by
  simp only [assemble, openBase, assembles.committedRuns, fetchRuns_eq_ok_iff.mpr serves,
    fetchRuns_eq_ok_iff.mpr (serves.grows grows), Fallible.ok_bind]

/-- As long as every worker that commits keeps up, every committed snapshot is assembled to
one forest, now and whatever the workers do next. -/
theorem snapshot_never_changes {log : Log} {config : Nat → FlusherConfig} {actions : List Action}
    {s : System} (performed : System.run log config actions = some s)
    (starts : Allowed (System.step log config) System.StartsHydrated actions System.init)
    (keepUp : Allowed (System.step log config) System.KeepsUp actions System.init)
    {k : Nat} {snapshot : SnapshotMeta} (committed : s.store.snapshots[k]? = some snapshot)
    (reader : FlusherConfig) :
    ∃ forest, ∀ more t, Execution.run (System.step log config) more s = some t →
      t.store.snapshots[k]? = some snapshot ∧ assemble reader t.store snapshot = .ok forest := by
  obtain ⟨runs, -, holds⟩ := System.routed_run performed starts keepUp
  have assembles := runs.2.shared k snapshot committed
  have routed := holds.shared k snapshot committed
  obtain ⟨forest, -, assembled, -⟩ := routed.assemble assembles reader
  obtain ⟨files, -, serves, -⟩ := routed
  refine ⟨forest, fun more t further => ?_⟩
  have grows := System.grows_run (System.inOrder_run performed).shared.fresh further
  refine ⟨grows.snapshots k snapshot committed, ?_⟩
  rw [assembles.assemble_grows grows serves, assembled]

/-- Worker 1 boots from the snapshot of worker 0 and commits above it. -/
theorem snapshot_never_changes_after_handover :
    let step := System.step (lines 1) fun _ => worker true
    let actions := boot 0 ++ ingest 0 0 1 ++ lead 0 4
    let more := boot 1 ++ ingest 1 1 1 ++ lead 1 4
    ∃ s snapshot t, Execution.run step actions System.init = some s ∧
      s.store.snapshots[1]? = some snapshot ∧ Execution.run step more s = some t ∧
      ∃ forest, assemble (worker false) t.store snapshot = .ok forest := by
  intro step actions more
  have reaches : (Execution.run step actions System.init).any (fun s =>
    s.store.snapshots[1]?.any fun _ => (Execution.run step more s).isSome) = true := by decide
  simp only [Option.any_eq_true] at reaches
  obtain ⟨s, performed, snapshot, stored, further⟩ := reaches
  obtain ⟨t, further⟩ := Option.isSome_iff_exists.mp further
  obtain ⟨forest, same⟩ := snapshot_never_changes performed (by decide) (by decide) stored _
  exact ⟨s, snapshot, t, performed, stored, further, forest, (same more t further).2⟩

end Blaze
