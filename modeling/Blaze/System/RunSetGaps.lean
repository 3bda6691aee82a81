import Blaze.System.RunSets

/-!
# Gaps in run sets

A worker that folds a delta over its stack after somebody else has committed
leaves a gap between the stack and the delta.  The snapshot it commits is refused
by every reader, so all run sets are accepted exactly when no batch was committed
that way.
-/

namespace Blaze

open Execution Script

variable {snapshot : SnapshotMeta} {s : System}

/-- The run set is accepted: it is not empty, its spans are adjacent, and the
newest one ends at the snapshot's own sequence. -/
def SnapshotMeta.Accepted (snapshot : SnapshotMeta) : Prop :=
  ∃ runs, snapshot.runSet = .ok (.runs runs) ∧ runs ≠ [] ∧ Contiguous runs ∧
    EndsAt runs snapshot.sequence

theorem SnapshotMeta.Assembles.accepted (assembles : snapshot.Assembles)
    (listed : snapshot.runs ≠ []) : snapshot.Accepted := by
  have contiguous := assembles.contiguous
  have ends := assembles.ends
  rw [assembled_of_ne_nil listed] at contiguous ends
  exact ⟨snapshot.runs, assembles.runSet listed, listed, contiguous, ends⟩

/-- A run set that is listed in order and has a gap below its newest run is
refused. -/
theorem SnapshotMeta.not_accepted_of_gap {listed : List RunMeta} {newest : RunMeta}
    (runs : snapshot.runs = listed ++ [newest])
    (ascending : snapshot.runs.Pairwise fun run later => run.minSequence ≤ later.minSequence)
    {below : RunMeta} (isLast : listed.getLast? = some below)
    (gap : below.maxSequence + 1 ≠ newest.minSequence) : ¬ snapshot.Accepted := by
  rintro ⟨sorted, accepted, -, -, -⟩
  rcases runSet_runs accepted with ⟨rfl, -, contiguous, -⟩
  rw [ascending.insertionSort_eq, runs, contiguous_append_iff] at contiguous
  exact gap (contiguous.2.2 below isLast newest rfl)

section Step

variable {log : Log} {config : FlusherConfig} {input : TickInput} {store store' : ObjectStore}
  {w w' : Worker}

/-- In disk mode every commit lists its runs. -/
theorem Worker.RunsOk.listed (disk : config.diskMode = true) (ok : store.InOrder)
    (order : w.InOrder store) (assembles : store.Assembles) (runs : w.RunsOk config store)
    (stands : w.tick.committing? = some snapshot) : snapshot.runs ≠ [] := by
  cases tick : w.tick with
  | commitMerge seen again publication committing =>
    rw [tick] at stands
    cases stands
    exact (runs.merge_assembles ok order assembles tick).2.1
  | commitData seen batch committing =>
    have ready := runs.tick
    rw [tick] at stands ready
    cases stands
    rcases ready with ⟨layer, ready, listed, -, -⟩
    have stack := runs.layers.stack
    generalize w.layers = layers at ready listed stack
    cases ready with
    | ram ram => exact absurd (disk.symm.trans ram) (by decide)
    | @disk current older newest _ split uncommitted reaches named =>
      rcases stack.exists_newest split uncommitted with ⟨below, atop⟩
      change snapshot.runs = (current.runMetas snapshot.puffinPath).getD [] at listed
      rw [listed, atop.runMetas]
      simp
  | _ =>
    rw [tick] at stands
    cases stands

/-- A batch committed over a stack that ends elsewhere is refused. -/
theorem Worker.RunsOk.gap_refused (ok : store.InOrder) (order : w.InOrder store)
    (assembles : store.Assembles) (runs : w.RunsOk config store) {seen : Observed} {batch : Batch}
    (stands : w.tick = .commitData seen batch snapshot) {layers : LocalLayers}
    (held : w.layers = some layers) {below : LocalRun}
    (isBelow : layers.runs.dropLast.getLast? = some below)
    (gap : below.maxSequence + 1 ≠ seen.sequence) : ¬ snapshot.Accepted := by
  have tick := runs.tick
  have tickOrder := order.tick
  have stack := runs.layers.stack
  rw [stands] at tick tickOrder
  rcases tick with ⟨layer, ready, listedRuns, -, -⟩
  rw [held] at ready listedRuns stack
  cases ready with
  | @disk _ older newest _ split uncommitted reaches named =>
    rcases stack.exists_newest split uncommitted with ⟨listed, atop⟩
    change snapshot.runs = (layers.runMetas snapshot.puffinPath).getD [] at listedRuns
    rw [atop.runMetas, Option.getD_some] at listedRuns
    have ascending := atop.ascending ok assembles snapshot.puffinPath
      (by rw [reaches, tickOrder.1.next]; exact Nat.lt_succ_self _)
    rw [← listedRuns] at ascending
    rw [split, List.dropLast_concat] at isBelow
    rcases atop.described.getLast? isBelow with ⟨last, isLast, same⟩
    refine SnapshotMeta.not_accepted_of_gap listedRuns ascending isLast ?_
    rw [(committedMeta?_eq_some_iff.mp same).2]
    change below.maxSequence + 1 ≠ newest.minSequence
    rcases atop.below with rfl | ⟨single, -⟩
    · cases isLast
    · rw [single, reaches]
      exact gap

end Step

namespace System

variable {log : Log} {config : Nat → FlusherConfig}

/-- Every snapshot lists its runs, if every worker is in disk mode. -/
theorem listed_run (disk : ∀ i, (config i).diskMode = true) {actions : List Action}
    (performed : run log config actions = some s)
    (aligned : Allowed (step log config) CommitsAdjacent actions init) (k : Nat)
    (snapshot : SnapshotMeta) (stored : s.store.snapshots[k]? = some snapshot) :
    snapshot.runs ≠ [] := by
  revert k snapshot
  have both := run_invariant (fun state : System => state.RunsOk config ∧
    ∀ (k : Nat) (snapshot : SnapshotMeta), state.store.snapshots[k]? = some snapshot →
      snapshot.runs ≠ []) ?_ ⟨runsOk_init, by simp [init, ObjectStore.empty]⟩ performed aligned
  · exact both.2
  · rintro state action after ⟨runs, listed⟩ adjacent stepped
    refine ⟨runsOk_step runs adjacent stepped, fun k snapshot stored => ?_⟩
    have present := KeyedMap.mem_of_getElem? stored
    rcases runs with ⟨ordered, holds⟩
    by_cases old : k ∈ state.store.snapshots
    · have earlier := Std.TreeMap.getElem?_eq_some_getElem old
      have kept := (grows_step ordered.shared.fresh stepped).1.snapshots k _ earlier
      rw [stored] at kept
      cases kept
      exact listed k _ earlier
    · rcases committing_of_new stepped old present with
        ⟨input, w, committing, -, running, stands, -, storedAfter⟩
      rw [stored] at storedAfter
      cases storedAfter
      have order := ordered.own action.worker
      have own := holds.own action.worker
      rw [running] at order own
      exact Worker.RunsOk.listed (disk action.worker) ordered.shared order holds.shared own stands

/-- A commit over a stack that ends elsewhere puts a refused snapshot into the
catalog. -/
theorem refused_step {t : System} {action : Action} (runs : s.RunsOk config)
    (stepped : step log config s action = some t) (apart : ¬ s.CommitsAdjacent action) :
    ∃ (k : Nat) (snapshot : SnapshotMeta), t.store.snapshots[k]? = some snapshot ∧
      ¬ snapshot.Accepted := by
  rcases runs with ⟨ordered, holds⟩
  rcases step_effect stepped with ⟨store, process, effect, rfl⟩
  have order := ordered.own action.worker
  have own := holds.own action.worker
  unfold CommitsAdjacent at apart
  generalize s.process action.worker = before at effect apart order own
  generalize action.act = act at effect apart
  cases effect with
  | @ticks w w' input _ effect =>
    cases stands : w.tick with
    | commitData seen batch snapshot =>
      simp only [Blaze.CommitsAdjacent, stands, not_forall] at apart
      rcases apart with ⟨arrived, free, layers, held, below, isBelow, gap⟩
      rcases Worker.InOrder.committed ordered.shared order stands free with ⟨appended, -⟩
      refine ⟨s.store.count + 1, snapshot, ?_, Worker.RunsOk.gap_refused ordered.shared order
        holds.shared own stands held isBelow gap⟩
      rw [Interleaving.update_store, effect.batch_arrives stands arrived free]
      exact appended.stored
    | _ => simp [Blaze.CommitsAdjacent, stands] at apart
  | crashes => cases before <;> exact absurd trivial apart
  | _ => exact absurd trivial apart

/-- An execution that commits a batch over a stack that ends elsewhere has
committed a refused snapshot. -/
theorem refused_run {actions : List Action} (performed : run log config actions = some s)
    (misaligned : ¬ Allowed (step log config) CommitsAdjacent actions init) :
    ∃ (k : Nat) (snapshot : SnapshotMeta), s.store.snapshots[k]? = some snapshot ∧
      ¬ snapshot.Accepted := by
  apply run_of_not_allowed (fun state : System =>
    ∃ (k : Nat) (snapshot : SnapshotMeta), state.store.snapshots[k]? = some snapshot ∧
      ¬ snapshot.Accepted) _ _ performed misaligned
  · intro past state action after reached pastAligned apart stepped
    exact refused_step (runsOk_run reached pastAligned) stepped apart
  · rintro past state action after reached ⟨k, snapshot, stored, refused⟩ stepped
    exact ⟨k, snapshot,
      (grows_step (inOrder_run reached).shared.fresh stepped).1.snapshots k snapshot stored,
      refused⟩

end System

/-- Disk-mode workers commit only run sets that are accepted exactly when every
batch that is committed over an older stack is committed right above it. -/
theorem accepted_iff_commitsAdjacent {log : Log} {config : Nat → FlusherConfig}
    (disk : ∀ i, (config i).diskMode = true) {actions : List Action} {s : System}
    (performed : System.run log config actions = some s) :
    (∀ (k : Nat) (snapshot : SnapshotMeta), s.store.snapshots[k]? = some snapshot →
      snapshot.Accepted) ↔
      Allowed (System.step log config) System.CommitsAdjacent actions System.init := by
  constructor
  · intro accepted
    by_contra misaligned
    rcases System.refused_run performed misaligned with ⟨k, snapshot, stored, refused⟩
    exact refused (accepted k snapshot stored)
  · intro aligned k snapshot stored
    exact ((System.runsOk_run performed aligned).2.shared k snapshot stored).accepted
      (System.listed_run disk performed aligned k snapshot stored)

/-- Two workers start on the empty table.  The first one commits, the second one
commits, and the first one leads again with the stack it kept: its delta does not
continue its first run. -/
theorem gap_after_leading_again :
    ∃ (s : System) (snapshot : SnapshotMeta),
      System.run (lines 3) (fun _ => worker true)
        (boot 0 ++ boot 1 ++ ingest 0 0 1 ++ lead 0 4 ++
          ingest 1 0 1 ++ ingest 1 0 2 ++ lead 1 4 ++
          ingest 0 0 2 ++ ingest 0 0 3 ++ lead 0 4) = some s ∧
      s.store.snapshots[3]? = some snapshot ∧ ¬ snapshot.Accepted := by
  refine exists_with_of_any (fun s =>
    s.store.snapshots[3]?.any fun snapshot => !snapshot.runSet.isOk) (by decide) ?_
  intro s performed present
  rcases (Option.any_eq_true _ _).mp present with ⟨snapshot, stored, refused⟩
  refine ⟨snapshot, stored, ?_⟩
  rintro ⟨runs, accepted, -⟩
  rw [accepted] at refused
  cases refused

/-- A worker that crashes and starts again continues the run set it finds. -/
theorem accepted_iff_commitsAdjacent_after_restart :
    ∃ s, System.run (lines 3) (fun _ => worker true)
        (boot 0 ++ ingest 0 0 1 ++ lead 0 4 ++ [⟨0, .crash⟩] ++
          boot 0 ++ ingest 0 0 2 ++ lead 0 4) = some s ∧
      2 ∈ s.store.snapshots ∧
      ((∀ (k : Nat) (snapshot : SnapshotMeta), s.store.snapshots[k]? = some snapshot →
        snapshot.Accepted) ↔ Allowed
          (System.step (lines 3) fun _ => worker true) System.CommitsAdjacent
          (boot 0 ++ ingest 0 0 1 ++ lead 0 4 ++ [⟨0, .crash⟩] ++
            boot 0 ++ ingest 0 0 2 ++ lead 0 4) System.init) := by
  refine exists_of_any (fun s => decide (2 ∈ s.store.snapshots)) (by decide) ?_
  intro s performed present
  exact ⟨of_decide_eq_true present, accepted_iff_commitsAdjacent (fun _ => rfl) performed⟩

end Blaze
