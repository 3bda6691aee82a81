import Blaze.Storage.LineageAnswers
import Blaze.System.SoleWriter

/-!
# Merges adopted by the only worker

Between the plan of a merge and its adoption the worker folds: deltas that are
committed, deltas that stay local, and rebuilds of the whole stack.  When the merge is
adopted at all, the stack it is spliced into still has the planned layers, so lookups
end where they did, and its spans still follow one another up to the catalog.
-/

namespace Blaze

open Script

/-- A stack with one range replaced by a merged layer, committed at the sequence:
lookups find the same parents, runs and layers still go together one by one and in the
old order, and the spans are adjacent up to the sequence. -/
structure LocalLayers.SplicedInto (sequence : Nat) (before after : LocalLayers) : Prop where
  shared : ∀ x, after.base.sharedParent x = before.base.sharedParent x
  overlay : ∀ s x, after.base.overlayParent s x = before.base.overlayParent s x
  aligned : after.Aligned
  inOrder : ∃ (range : RunRange) (path : LocalPath) (file : PuffinBase),
    range.Within 1 before.runs.length ∧
      (after.runs.map LocalRun.path).zip after.base.layers =
        ((before.runs.map LocalRun.path).zip before.base.layers).take range.start ++
          (path, file) ::
            ((before.runs.map LocalRun.path).zip before.base.layers).drop range.stop
  forwards : ∀ run ∈ after.runs, run.minSequence ≤ run.maxSequence
  adjacent : after.runs.IsChain fun run next => run.maxSequence + 1 = next.minSequence
  reaches : ∀ newest ∈ after.runs.getLast?, newest.maxSequence = sequence

namespace Worker

/-- The next step of the tick belongs to `adopt_merge`. -/
def Adopts (input : TickInput) (w : Worker) : Prop :=
  match w.tick with
  | .readLatest => input.leader = true
  | .putMerge _ _ _ => True
  | .commitMerge _ _ _ _ => True
  | .awaitMerge _ => True
  | _ => False

end Worker

section Splice

variable {log : Log} {bound : Set EdgeEvent} {config : FlusherConfig} {store : ObjectStore}
  {w : Worker} {seen : Observed} {again : Bool} {publication : Publication}
  {snapshot : SnapshotMeta} {spliced : LayeredBase}

/-- The catalog lists a run with the span it has locally. -/
theorem Described.spans {runs : List LocalRun} {listed : List RunMeta}
    (described : Described runs listed) :
    runs.map (fun run => (run.minSequence, run.maxSequence)) =
      listed.map fun run => (run.minSequence, run.maxSequence) := by
  induction described with
  | nil => rfl
  | cons same _ ih =>
    rw [List.map_cons, List.map_cons, ih, (committedMeta?_eq_some_iff.mp same).2]
    rfl

/-- A stack whose run set is contiguous has adjacent spans itself. -/
theorem Described.contiguous {runs : List LocalRun} {listed : List RunMeta}
    (described : Described runs listed) (contiguous : Contiguous listed) :
    (∀ run ∈ runs, run.minSequence ≤ run.maxSequence) ∧
      runs.IsChain fun run next => run.maxSequence + 1 = next.minSequence := by
  have spans := described.spans
  constructor
  · intro run member
    have inside := List.mem_map_of_mem (f := fun run => (run.minSequence, run.maxSequence)) member
    rw [spans] at inside
    obtain ⟨held, isHeld, same⟩ := List.mem_map.mp inside
    rw [Prod.mk.injEq] at same
    rw [← same.1, ← same.2]
    exact contiguous.forwards held isHeld
  · have chain : (listed.map fun run => (run.minSequence, run.maxSequence)).IsChain
        fun span next => span.2 + 1 = next.1 :=
          (List.isChain_map _).mpr contiguous.adjacent
    rw [← spans] at chain
    exact (List.isChain_map _).mp chain

/-- The runs of a spliced stack describe the layers one by one. -/
theorem zip_splicedLayers
    (aligned : publication.current.Aligned)
    (lengths : snapshot.runs.length = publication.localPaths.length)
    (layers : spliced.layers = publication.current.base.layers.take publication.range.start ++
      publication.file :: publication.current.base.layers.drop publication.range.stop) :
    ((Worker.splicedLayers spliced snapshot.runs publication).runs.map LocalRun.path).zip
        spliced.layers =
      ((publication.current.runs.map LocalRun.path).zip publication.current.base.layers).take
          publication.range.start ++
        (publication.pending.path, publication.file) ::
          ((publication.current.runs.map LocalRun.path).zip publication.current.base.layers).drop
            publication.range.stop := by
  unfold LocalLayers.Aligned at aligned
  rw [Worker.paths_splicedLayers lengths, layers, Publication.localPaths, List.zip_append,
    List.zip_cons_cons]
  · simp only [List.zip, List.take_zipWith, List.drop_zipWith, List.map_take, List.map_drop]
  · rw [List.length_map, List.length_take, List.length_take, aligned]

/-- A merge that is committed and spliced in leaves such a stack. -/
theorem splicedInto_of_commitMerge (ok : store.InOrder) (order : w.InOrder store)
    (assembles : store.Assembles) (runs : w.RunsOk config store) (routed : w.Routed log bound store)
    (stands : w.tick = .commitMerge seen again publication snapshot)
    (resolved : publication.current.base.spliced publication.range.start
      publication.range.stop publication.file = .ok spliced) :
    publication.current.SplicedInto snapshot.sequence
      (Worker.splicedLayers spliced snapshot.runs publication) := by
  rcases runs.merge_assembles ok order assembles stands with ⟨committed, listed, lengths⟩
  have tick := runs.tick
  have content := routed.tick
  rw [stands] at tick content
  obtain ⟨fits, -⟩ := tick
  obtain ⟨sound, -⟩ := content
  have aligned := (routed.serving.backed _ fits.current).aligned
  have layers := spliced_layers resolved
  obtain ⟨events, onDisk, -, -⟩ := routed.serving.state
  have stack := onDisk.stack
  rw [routed.serving.base, fits.current] at stack
  have proper : publication.range.start ≤ publication.range.stop :=
    (Nat.le_succ _).trans fits.within.1
  have split : baseLayers (some publication.current.base) =
      publication.current.base.layers.take publication.range.start ++
        publication.pending.stack.layers ++
          publication.current.base.layers.drop publication.range.stop := by
    rw [← sound.window]
    exact RunRange.take_window_drop proper publication.current.base.layers
  have merged := layers
  rw [sound.merged] at merged
  have described : Described (Worker.splicedLayers spliced snapshot.runs publication).runs
      snapshot.runs := described_zip lengths
  have contiguous := committed.contiguous
  have ends := committed.ends
  rw [SnapshotMeta.assembled_of_ne_nil listed] at contiguous ends
  refine ⟨?_, ?_, ?_, ?_, ?_, ?_, ?_⟩
  · intro x
    exact resolve_congr (congrFun (ScopedForest.sharedRoot_spliced stack split merged) x)
  · intro s x
    exact resolve_congr (congrFun (ScopedForest.overlayRoot_spliced stack split merged s) x)
  · change spliced.layers.length = _
    unfold LocalLayers.Aligned at aligned
    rw [described.length_eq, lengths, layers, Publication.localPaths]
    simp only [List.length_append, List.length_cons, List.length_map, List.length_take,
      List.length_drop, aligned]
  · exact ⟨publication.range, publication.pending.path, publication.file, fits.within,
      zip_splicedLayers aligned lengths layers⟩
  · exact (described.contiguous contiguous).1
  · exact (described.contiguous contiguous).2
  · intro newest isLast
    obtain ⟨last, listedLast, same⟩ := described.getLast? isLast
    have reaches := ends last listedLast
    rw [(committedMeta?_eq_some_iff.mp same).2] at reaches
    exact reaches

end Splice

/-- Whatever the only worker has folded, committed or left local since it planned a
merge, `adopt_merge` leaves its stack as it is, or commits a snapshot at a free sequence
and splices the merge in: no lookup changes, each run goes with its layer, and the spans
are adjacent up to the sequence just committed. -/
theorem adopt_merge_keeps_lookups {log : Log} {config : FlusherConfig} {i : Nat}
    {actions : List Action} {s : System}
    (performed : System.run log (fun _ => config) actions = some s)
    (one : Execution.Allowed (System.step log fun _ => config) (System.OneWorker i) actions
      System.init)
    {w w' : Worker} {input : TickInput} {store' : ObjectStore}
    (running : s.process i = .running w) (adopts : w.Adopts input)
    (stepped : w.tickStep config input s.store = some (store', w')) :
    w'.layers = w.layers ∨
      ∃ (before after : LocalLayers) (snapshot : SnapshotMeta), w.layers = some before ∧
        w'.layers = some after ∧ snapshot.sequence ∉ s.store.snapshots ∧
        store'.snapshots[snapshot.sequence]? = some snapshot ∧
        before.SplicedInto snapshot.sequence after := by
  obtain ⟨⟨⟨ordered, runs⟩, data, holds⟩, -⟩ := System.inStep_run performed one
  have order := ordered.own i
  have runsOk := runs.own i
  have routed := holds.own i
  rw [running] at order runsOk routed
  unfold Worker.Adopts at adopts
  cases Worker.tickStep_effect stepped with
  | follows stands reply found follower =>
      rw [stands] at adopts
      cases follower.symm.trans adopts
  | leads stands reply found leader decided | undescribable stands reply decided
  | commitMergeConflict stands reply taken decided | awaits stands decided =>
    exact Or.inl decided.layers_eq
  | @commitMerge seen again publication snapshot spliced _ stands reply works free resolved
      decided =>
      have fits := runsOk.tick
      rw [stands] at fits
      refine Or.inr ⟨publication.current, _, snapshot, fits.1.current, decided.layers_eq, free, ?_,
        splicedInto_of_commitMerge ordered.shared order runs.shared runsOk routed stands resolved⟩
      unfold ObjectStore.commit
      rw [SnapshotCatalog.commit_of_not_mem free]
      exact Std.TreeMap.getElem?_insert_self
  | foldFails stands =>
      rw [stands] at adopts
      cases adopts
  | putData stands =>
      rw [stands] at adopts
      cases adopts
  | commitData stands =>
      rw [stands] at adopts
      cases adopts
  | _ => exact Or.inl rfl

/-- Whether the tick waits for the commit of a merge. -/
def TickState.committingMerge : TickState → Bool
  | .commitMerge _ _ _ _ => true
  | _ => false

theorem Worker.adopts_of_committingMerge {w : Worker} (waits : w.tick.committingMerge = true)
    (input : TickInput) : w.Adopts input := by
  unfold Worker.Adopts
  generalize w.tick = tick at waits
  cases tick with
  | commitMerge seen again publication snapshot => trivial
  | _ => cases waits

/-- Two batches are committed and a merge of their runs is planned; a third batch is
committed before the merge is done, and the next tick adopts it. -/
def Script.mergedLate : List Action :=
  boot 0 ++ ingest 0 0 1 ++ lead 0 4 ++ ingest 0 0 2 ++
    lead 0 4 ++ lead 0 1 ++ ingest 0 0 3 ++ lead 0 4 ++
    [⟨0, .finishMerge true⟩] ++ lead 0 2

/-- The merge is spliced in below the batch that overtook it. -/
theorem adopt_merge_keeps_lookups_mergedLate :
    ∃ (before after : LocalLayers), before.runs.length = 3 ∧ after.runs.length = 2 ∧
      ∃ sequence, before.SplicedInto sequence after := by
  have reaches : (System.run (lines 3) (fun _ => worker true)
      mergedLate).any (fun s => (s.process 0).worker?.any fun w =>
        w.tick.committingMerge && w.layers.any (fun current => current.runs.length == 3) &&
          (w.tickStep (worker true) leading s.store).any fun result =>
            result.2.layers.any fun current => current.runs.length == 2) = true := by
    decide +kernel
  obtain ⟨s, performed, rest⟩ := (Option.any_eq_true _ _).mp reaches
  obtain ⟨w, running, rest⟩ := (Option.any_eq_true _ _).mp rest
  rw [Bool.and_eq_true, Bool.and_eq_true] at rest
  obtain ⟨⟨waits, three⟩, rest⟩ := rest
  obtain ⟨⟨store', w'⟩, stepped, two⟩ := (Option.any_eq_true _ _).mp rest
  obtain ⟨current, held, three⟩ := (Option.any_eq_true _ _).mp three
  obtain ⟨next, installed, two⟩ := (Option.any_eq_true _ _).mp two
  have three : current.runs.length = 3 := by simpa using three
  have two : next.runs.length = 2 := by simpa using two
  have one : Execution.Allowed (System.step (lines 3) fun _ => worker true)
      (System.OneWorker 0) mergedLate System.init := by
    apply Execution.allowed_of_forall_mem
    intro action member state
    have only : ∀ action ∈ mergedLate, OnlyWriter 0 action := by decide
    obtain ⟨worker, act⟩ := action
    have here := only _ member
    cases here.1
    exact ⟨rfl, here.mergesAnswered⟩
  rcases adopt_merge_keeps_lookups performed one (Process.eq_running running)
    (Worker.adopts_of_committingMerge waits _) stepped with
    kept | ⟨before, after, snapshot, isBefore, isAfter, -, -, spliced⟩
  · have same := kept.symm.trans installed
    cases held.symm.trans same
    omega
  · cases held.symm.trans isBefore
    cases installed.symm.trans isAfter
    exact ⟨_, _, three, two, _, spliced⟩

end Blaze
