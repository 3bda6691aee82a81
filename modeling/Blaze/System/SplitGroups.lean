import Blaze.Storage.Stack
import Blaze.System.CommitOrder

/-!
# Ticks of a split consumer group

Workers that consume different partitions of one stream overtake each other in
the catalog.  Before it commits, a tick asks whether its snapshot advances from
the one it read; but the position it asks about has already been merged with the
one it read, so the answer is always yes.  A tick returns an error exactly when
one of its own requests or its own disk fails, whatever the others have
committed.
-/

namespace Blaze

open Execution Fallible SnapshotCatalog Script

variable {w : Worker} {seen : Observed} {s t : System} {i : Nat} {config : FlusherConfig}
  {input : TickInput} {store store' : ObjectStore} {stream : Option StreamId} {log : Log}
  {snapshot : SnapshotMeta} {result : Except TickError Unit} {layers : LocalLayers}
  {process process' : Process} {act : Act} {actions : List Action}

/-! ## What the check before a commit can find -/

/-- A snapshot that was read belongs to the stream. -/
def Observed.OfStream (stream : Option StreamId) (seen : Observed) : Prop :=
  ∀ latest ∈ seen.latest, latest.stream = stream

theorem StreamId.sameStream_refl (id : StreamId) : id.sameStream id = true := by
  simp [sameStream]

theorem SnapshotMeta.advancesFrom_eq_ok {previous : SnapshotMeta}
    (covers : snapshot.streamPosition.dominates previous.streamPosition = true)
    (stream : snapshot.stream = previous.stream) : snapshot.advancesFrom previous = .ok () := by
  unfold advancesFrom
  simp only [covers, stream]
  cases previous.stream with
  | none => rfl
  | some id => simp [StreamId.sameStream_refl]

/-- The check passes for every batch of the same stream: its position was built
by merging into the one it is compared with. -/
theorem Worker.advances_dataSnapshot {config : FlusherConfig} {batch : Batch}
    (ofStream : seen.OfStream config.stream)
    (merged : ∀ p, seen.prevPosition.get p ≤ batch.position.get p) (dataPath path : ObjectPath)
    (layer : Layer) (nowMs : Int) :
    advances seen (w.dataSnapshot config seen batch dataPath path layer nowMs) = .ok () := by
  unfold advances
  cases read : seen.latest with
  | none => rfl
  | some previous =>
    apply SnapshotMeta.advancesFrom_eq_ok
    · rw [StreamPosition.dominates_iff]
      intro p
      have position := merged p
      unfold Observed.prevPosition at position
      rw [read] at position
      have same : (w.dataSnapshot config seen batch dataPath path layer
          nowMs).streamPosition.get p = batch.position.get p :=
        SnapshotMeta.get_streamPosition rfl p
      rw [same]
      exact position
    · exact (ofStream previous read).symm

/-! ## Ticks that cannot fail by themselves -/

/-- A finished merge names a window of a stack with one run per layer. -/
structure Publication.Aligned (publication : Publication) : Prop where
  layers : publication.current.Aligned
  within : publication.range.Within 1 publication.current.runs.length

def TickState.Sound (stream : Option StreamId) : TickState → Prop
  | .idle _ => True
  | .readLatest => True
  | .putMerge seen _ publication => seen.OfStream stream ∧ publication.Aligned
  | .commitMerge seen _ publication snapshot => seen.OfStream stream ∧ publication.Aligned ∧
      snapshot.stream = stream ∧ snapshot.runs.length = publication.localPaths.length
  | .awaitMerge seen => seen.OfStream stream
  | .putData seen _ => seen.OfStream stream
  | .putPuffin seen _ _ _ _ => seen.OfStream stream
  | .commitData seen _ snapshot => seen.OfStream stream ∧ snapshot.stream = stream

/-- One run per layer, and everything read or about to be committed belongs to
the stream. -/
structure Worker.Sound (stream : Option StreamId) (w : Worker) : Prop where
  layers : ∀ current ∈ w.layers, current.Aligned
  tick : w.tick.Sound stream

def Process.Sound (stream : Option StreamId) : Process → Prop
  | .offline => True
  | .booting boot => ∀ current ∈ boot.layers, current.Aligned
  | .running w => w.Sound stream

def ObjectStore.OfStream (stream : Option StreamId) (store : ObjectStore) : Prop :=
  ∀ (k : Nat) (snapshot : SnapshotMeta), store.snapshots[k]? = some snapshot →
    snapshot.stream = stream

namespace Worker

variable {w' : Worker}

theorem Sound.proceeds (layers : ∀ current ∈ w.layers, current.Aligned)
    (ofStream : seen.OfStream stream) (proceeds : Proceeds w seen w') : w'.Sound stream := by
  cases proceeds with
  | refused | nothing => exact ⟨layers, trivial⟩
  | batch | await => exact ⟨layers, ofStream⟩
  | upload again ready finished held located committed =>
    exact ⟨layers, ofStream, layers _ held, (locateRunWindow_spec located).1⟩

/-- A decision about merges never ends a tick with an error. -/
theorem Proceeds.returns_ok (layers : ∀ current ∈ w.layers, current.Aligned)
    (proceeds : Proceeds w seen w') (returned : w'.tick = .idle result) : result = .ok () := by
  cases proceeds with
  | @refused current range text held within unsliced =>
    have proper : range.Within 1 current.runs.length := by
      unfold RunRange.Within at within ⊢
      omega
    rcases (layers current held).slice proper with ⟨slice, sliced, -⟩
    rw [unsliced] at sliced
    cases sliced
  | nothing =>
    cases returned
    rfl
  | _ => cases returned

theorem aligned_fold {sequence : Nat} {layers : Option LocalLayers}
    {forest forest' : ScopedForest LayeredBase} {next : LocalLayers} {file : PuffinBase}
    {layer : Layer} (aligned : ∀ current ∈ layers, current.Aligned)
    (written : FoldWrites forest sequence layers forest' next file layer) : next.Aligned := by
  cases written with
  | rebuilt => rfl
  | @layered current =>
    have lengths := aligned current rfl
    unfold LocalLayers.Aligned at lengths ⊢
    simp [LayeredBase.pushed, lengths]

theorem aligned_spliced {publication : Publication} {spliced : LayeredBase}
    {runs : List RunMeta} (aligned : publication.Aligned)
    (resolved : publication.current.base.spliced publication.range.start publication.range.stop
      publication.file = .ok spliced)
    (lengths : runs.length = publication.localPaths.length) :
    (splicedLayers spliced runs publication).Aligned := by
  rcases aligned.layers.spliced aligned.within publication.file with ⟨made, same, layers⟩
  rw [resolved] at same
  cases same
  have stack := aligned.layers
  unfold LocalLayers.Aligned at stack ⊢
  unfold splicedLayers
  dsimp only
  rw [layers, List.length_map, List.length_zip, lengths, Nat.min_self]
  simp [Publication.localPaths, stack]

theorem aligned_markCommitted (aligned : layers.Aligned) (path : ObjectPath) :
    (layers.markCommitted path).Aligned := by
  unfold LocalLayers.Aligned at aligned ⊢
  unfold LocalLayers.markCommitted
  dsimp only
  rw [aligned]
  cases isLast : layers.runs.getLast? with
  | none => rfl
  | some newest =>
    conv_lhs => rw [← List.dropLast_append_getLast? newest isLast]
    simp

theorem Sound.finish (layers : ∀ current ∈ w.layers, current.Aligned)
    (result : Except TickError Unit) : (w.finish result).Sound stream :=
  ⟨layers, trivial⟩

theorem Sound.tickEffect (ok : store.InOrder) (order : w.InOrder store)
    (ofStream : store.OfStream stream) (configured : config.stream = stream)
    (sound : w.Sound stream) (effect : TickEffect config input store w store' w') :
    w'.Sound stream := by
  have tick := sound.tick
  have read : (Observed.new store.snapshots[store.count]?).OfStream stream :=
    fun latest found => ofStream store.count latest found
  cases effect with
  | readRefused => exact ⟨sound.layers, trivial⟩
  | @follows _ latest =>
    refine ⟨?_, trivial⟩
    intro current held
    have effect := fold_effect config w.forest w.layers (Observed.new latest).sequence false
      input.diskOk
    change current ∈ (fold config w.forest w.layers (Observed.new latest).sequence false
      input.diskOk).layers at held
    generalize fold config w.forest w.layers (Observed.new latest).sequence false
      input.diskOk = folded at effect held
    cases effect with
    | kept | fails => exact sound.layers current held
    | writes disk works written =>
      cases held
      exact aligned_fold sound.layers written
  | leads stands reply found leader proceeds =>
    rcases read_newest ok order.cached found with ⟨rfl, ⟨⟩⟩
    exact Sound.proceeds (w := ({ w with cachedSeq := store.count }.dropCovered _)) sound.layers
      read proceeds
  | undescribable stands reply proceeds =>
    rw [stands] at tick
    exact Sound.proceeds sound.layers tick.1 proceeds
  | putMerge stands reply described =>
    rw [stands] at tick
    refine ⟨sound.layers, tick.1, tick.2, configured, (length_spliceRunSet described).trans ?_⟩
    simp [Publication.localPaths]
  | commitMergeConflict stands reply taken proceeds =>
    rw [stands] at tick
    exact Sound.proceeds sound.layers tick.1 proceeds
  | spliceFails => exact ⟨sound.layers, trivial⟩
  | commitMerge stands reply works free resolved proceeds =>
    rw [stands] at tick
    refine Sound.proceeds ?_ (show Observed.OfStream stream (Observed.next _) from tick.1) proceeds
    rintro _ ⟨rfl⟩
    exact aligned_spliced tick.2.1 resolved tick.2.2.2
  | awaits stands proceeds =>
    rw [stands] at tick
    exact Sound.proceeds sound.layers tick proceeds
  | foldFails stands reply folded =>
    have effect := foldForCommit_effect folded
    cases effect with
    | fails => exact ⟨sound.layers, trivial⟩
  | putData stands reply folded =>
    have effect := foldForCommit_effect folded
    rw [stands] at tick
    cases effect with
    | ram => exact ⟨sound.layers, tick⟩
    | writes disk works written =>
      refine ⟨?_, tick⟩
      rintro _ ⟨rfl⟩
      exact aligned_fold sound.layers written
  | putPuffin stands reply checked =>
    rw [stands] at tick
    exact ⟨sound.layers, tick, configured⟩
  | commitData =>
    refine ⟨?_, trivial⟩
    intro current held
    rcases Option.map_eq_some_iff.mp held with ⟨layers, was, rfl⟩
    exact aligned_markCommitted (sound.layers layers was) _
  | _ => exact Sound.finish sound.layers _

/-! ## When a tick returns an error -/

/-- The request the tick stands at fails, or the local file it needs next cannot
be written or mapped; a commit of a batch that takes effect does not count. -/
def Fails (config : FlusherConfig) (store : ObjectStore) (w : Worker) (input : TickInput) : Prop :=
  match w.tick with
  | .idle _ => False
  | .readLatest => input.reply ≠ .done ∨
      input.leader = false ∧ input.diskOk = false ∧ config.diskMode = true ∧
        config.followerFoldAfterLinks ≤ w.forest.memtableLinks
  | .putMerge _ _ _ => input.reply ≠ .done
  | .commitMerge _ _ _ snapshot => input.reply ≠ .done ∨
      input.diskOk = false ∧ store.Free snapshot.sequence
  | .awaitMerge _ => False
  | .putData _ _ => input.reply ≠ .done ∨ input.diskOk = false ∧ config.diskMode = true
  | .putPuffin _ _ _ _ _ => input.reply ≠ .done
  | .commitData _ _ snapshot =>
      input.reply = .failed ∨ input.reply = .lost ∧ ¬ store.Free snapshot.sequence

/-- The step commits a batch. -/
def CommitsBatch (store : ObjectStore) (w : Worker) (input : TickInput) : Prop :=
  match w.tick with
  | .commitData _ _ snapshot => input.reply ≠ .failed ∧ store.Free snapshot.sequence
  | _ => False

/-- A fold that is asked for fails with the disk. -/
theorem fold_fails_iff (config : FlusherConfig) (forest : ScopedForest LayeredBase)
    (layers : Option LocalLayers) (sequence : Nat) (force diskOk : Bool) :
    (∃ error, (fold config forest layers sequence force diskOk).file = .error error) ↔
      diskOk = false ∧ config.diskMode = true ∧
        (force = true ∨ config.followerFoldAfterLinks ≤ forest.memtableLinks) := by
  unfold fold
  split
  · next ram =>
      have ram : config.diskMode = false := by simpa using ram
      simp [ram]
  · next disk =>
      have disk : config.diskMode = true := by simpa using disk
      split
      · next small =>
          simp only [Bool.and_eq_true, Bool.not_eq_true', decide_eq_true_eq] at small
          simp [small.1, small.2]
      · next needed =>
          have needed : force = true ∨
              config.followerFoldAfterLinks ≤ forest.memtableLinks := by
            simp only [Bool.and_eq_true, Bool.not_eq_true', decide_eq_true_eq, not_and,
              not_lt] at needed
            cases force with
            | true => exact Or.inl rfl
            | false => exact Or.inr (needed rfl)
          simp only [disk, needed, and_true]
          cases layers with
          | none => cases diskOk <;> simp [foldBase, writeAtomically, ScopedForest.compactAndFold,
              Except.map]
          | some current =>
            dsimp only
            split
            · cases diskOk <;> simp [foldDelta, writeAtomically, ScopedForest.foldDelta,
                Except.map]
            · cases diskOk <;> simp [foldBase, writeAtomically, ScopedForest.compactAndFold,
                Except.map]

/-- A tick that returns does so with an error, and without having committed its
batch, exactly when its last request or its disk failed. -/
theorem TickEffect.errs_iff (ok : store.InOrder) (order : w.InOrder store)
    (configured : config.stream = stream) (sound : w.Sound stream)
    (effect : TickEffect config input store w store' w') (returned : w'.tick = .idle result) :
    ((∃ error, result = .error error) ∧ ¬ CommitsBatch store w input) ↔
      w.Fails config store input := by
  have tick := sound.tick
  have tickOrder := order.tick
  have decided : ∀ {w₁ : Worker} {seen : Observed}, Proceeds w₁ seen w' →
      (∀ current ∈ w₁.layers, current.Aligned) → ¬ ∃ error, result = .error error := by
    rintro w₁ seen proceeds layers ⟨error, failed⟩
    rw [proceeds.returns_ok layers returned] at failed
    cases failed
  cases effect with
  | readFails stands reply =>
    cases returned
    simp [Fails, CommitsBatch, stands, reply]
  | readRefused stands reply found => cases (read_newest ok order.cached found).2
  | @follows _ latest stands reply found follower =>
    have folded := fold_fails_iff config w.forest w.layers (Observed.new latest).sequence false
      input.diskOk
    change TickState.idle ((fold config w.forest w.layers (Observed.new latest).sequence false
      input.diskOk).file.map fun _ => ()) = .idle result at returned
    generalize fold config w.forest w.layers (Observed.new latest).sequence false
      input.diskOk = outcome at folded returned
    cases returned
    simp only [Bool.false_eq_true, false_or] at folded
    simp only [Fails, CommitsBatch, stands, reply, follower, not_false_eq_true, and_true,
      ne_eq, not_true_eq_false, false_or, true_and, ← folded]
    cases outcome.file <;> simp [Except.map]
  | leads stands reply found leader proceeds =>
    have none := decided proceeds sound.layers
    simp [Fails, stands, reply, leader, none]
  | putMergeFails stands reply =>
    cases returned
    simp [Fails, CommitsBatch, stands, reply]
  | undescribable stands reply proceeds =>
    simp [Fails, stands, reply, decided proceeds sound.layers]
  | commitMergeFails stands reply =>
    cases returned
    simp [Fails, CommitsBatch, stands, reply]
  | commitMergeLost stands reply =>
    cases returned
    simp [Fails, CommitsBatch, stands, reply]
  | commitMergeConflict stands reply taken proceeds =>
    simp [Fails, stands, reply, ObjectStore.Free, taken, decided proceeds sound.layers]
  | @spliceFails seen again publication snapshot error stands reply free cause =>
    rw [stands] at tick
    have broken : input.diskOk = false := by
      rcases cause with ⟨broken, -⟩ | ⟨text, -, failed⟩
      · exact broken
      · rcases tick.2.1.layers.spliced tick.2.1.within publication.file with ⟨made, same, -⟩
        rw [failed] at same
        cases same
    cases returned
    simp [Fails, CommitsBatch, stands, reply, ObjectStore.Free, free, broken]
  | commitMerge stands reply works free resolved proceeds =>
    rw [stands] at tick
    have none := decided proceeds (by
      rintro _ ⟨rfl⟩
      exact aligned_spliced tick.2.1 resolved tick.2.2.2)
    simp [Fails, stands, reply, works, none]
  | awaits stands proceeds => simp [Fails, stands, decided proceeds sound.layers]
  | putDataFails stands reply =>
    cases returned
    simp [Fails, CommitsBatch, stands, reply]
  | foldFails stands reply folded =>
    have effect := foldForCommit_effect folded
    cases returned
    cases effect with
    | fails disk broken => simp [Fails, CommitsBatch, stands, reply, disk, broken]
  | putPuffinFails stands reply =>
    cases returned
    simp [Fails, CommitsBatch, stands, reply]
  | refused stands reply checked =>
    rw [stands] at tick tickOrder
    rw [advances_dataSnapshot (configured ▸ tick) tickOrder.2] at checked
    cases checked
  | commitDataFails stands reply =>
    cases returned
    simp [Fails, CommitsBatch, stands, reply]
  | commitDataLost stands reply =>
    cases returned
    simp [Fails, CommitsBatch, stands, reply]
  | commitDataConflict stands reply taken =>
    cases returned
    simp [Fails, CommitsBatch, stands, reply]
  | commitData stands reply free =>
    cases returned
    simp [Fails, CommitsBatch, stands, reply]
  | _ => cases returned

end Worker

/-! ## Whole executions -/

theorem ObjectStore.OfStream.commit (ofStream : store.OfStream stream)
    (same : snapshot.stream = stream) : (store.commit snapshot).OfStream stream := by
  intro k held stored
  rcases ObjectStore.getElem?_commit stored with old | ⟨-, rfl⟩
  · exact ofStream k held old
  · exact same

theorem ObjectStore.OfStream.storeChange (ofStream : store.OfStream stream) (sound : w.Sound stream)
    (change : StoreChange input w store store') : store'.OfStream stream := by
  have tick := sound.tick
  cases change with
  | merge stands =>
    rw [stands] at tick
    exact ofStream.commit tick.2.2.1
  | batch stands =>
    rw [stands] at tick
    exact ofStream.commit tick.2
  | _ => exact ofStream

/-- Opening the committed state maps one file per run. -/
theorem aligned_openBase {latest : SnapshotMeta} {base : LayeredBase}
    (mapped : openBase store latest = .ok (base, layers)) : layers.Aligned := by
  rcases bind_eq_ok_iff.mp mapped with ⟨runs, -, rest⟩
  rcases bind_eq_ok_iff.mp rest with ⟨files, fetched, rest⟩
  rcases bind_eq_ok_iff.mp rest with ⟨stack, stacked, ⟨⟩⟩
  have lengths := (mapM_eq_ok_iff.mp fetched).length_eq
  unfold LayeredBase.fromLayers at stacked
  split at stacked
  · cases stacked
  · cases stacked
    unfold LocalLayers.Aligned
    rw [List.length_map]
    exact lengths.symm

theorem Process.Sound.effect (ok : store.InOrder) (order : process.InOrder store)
    (ofStream : store.OfStream stream) (configured : config.stream = stream)
    (sound : process.Sound stream)
    (effect : ProcessEffect log config store process act store' process') :
    store'.OfStream stream ∧ process'.Sound stream := by
  cases effect with
  | bootFails | crashes => exact ⟨ofStream, trivial⟩
  | boots loaded =>
    refine ⟨ofStream, ?_⟩
    cases loadState_loaded loaded with
    | fresh | hydrated => simp [Process.Sound]
    | opened disk read mapped =>
      rintro current ⟨rfl⟩
      exact aligned_openBase mapped
  | checks => exact ⟨ofStream, Boot.checkStream_rule trivial fun _ _ => sound⟩
  | seeks checked =>
    rcases Boot.seek_spec ok order with ⟨position, -, sought⟩
    rw [sought]
    exact ⟨ofStream, sound, trivial⟩
  | applies | appends | finishes => exact ⟨ofStream, sound.layers, sound.tick⟩
  | starts => exact ⟨ofStream, sound.layers, trivial⟩
  | ticks effect =>
    exact ⟨ofStream.storeChange sound effect.storeChange,
      Worker.Sound.tickEffect ok order ofStream configured sound effect⟩

/-- No tick of the process is under way. -/
def Process.Resting : Process → Prop
  | .running w => ∃ result, w.tick = .idle result
  | _ => True

theorem Process.Resting.effect (resting : process.Resting) (unstarted : act ≠ .startTick)
    (effect : ProcessEffect log config store process act store' process') : process'.Resting := by
  cases effect with
  | checks => exact Boot.checkStream_rule trivial fun _ _ => trivial
  | seeks checked =>
    unfold Boot.seek
    dsimp only
    split
    · trivial
    · exact ⟨_, rfl⟩
  | applies | appends | finishes => exact resting
  | starts => exact absurd rfl unstarted
  | ticks effect =>
    -- a worker without a tick has no request to get a reply to
    rcases resting with ⟨result, idle⟩
    cases effect <;> simp_all
  | _ => trivial

/-- Committing its batch ends the tick. -/
theorem Worker.CommitsBatch.resting {w' : Worker} (commits : w.CommitsBatch store input)
    (effect : Worker.TickEffect config input store w store' w') : (Process.running w').Resting := by
  unfold Worker.CommitsBatch at commits
  split at commits
  · next seen batch snapshot stands =>
      cases effect with
      | commitDataFails => exact ⟨_, rfl⟩
      | commitDataLost => exact ⟨_, rfl⟩
      | commitDataConflict => exact ⟨_, rfl⟩
      | commitData => exact ⟨_, rfl⟩
      | _ => simp_all
  · cases commits

namespace System

variable {config : Nat → FlusherConfig}

/-- Everything in the catalog belongs to the stream, and no worker's tick can fail
by itself. -/
def Sound (stream : Option StreamId) (s : System) : Prop :=
  s.InOrder ∧ Interleaving.Holds (fun store => store.OfStream stream)
    (fun _ _ process => process.Sound stream) s

theorem sound_run (streams : ∀ i, (config i).stream = stream)
    (performed : run log config actions = some s) : s.Sound stream := by
  apply run_invariant_of_step (Sound stream) _ _ performed
  · rintro state action after ⟨ordered, holds⟩ stepped
    refine ⟨inOrder_step ordered stepped, ?_⟩
    apply Interleaving.Holds.step holds stepped
    · intro store process taken
      exact Process.Sound.effect ordered.shared (ordered.own _) holds.shared (streams _)
        (holds.own _) (Process.step_effect taken)
    · exact fun store process taken j other claim => claim
  · exact ⟨inOrder_init, by simp [init, ObjectStore.empty, ObjectStore.OfStream], fun _ => trivial⟩

/-- In this step worker `i` commits a batch. -/
def CommitsBatch (i : Nat) (s : System) (action : Action) : Prop :=
  ∃ w input, action = ⟨i, .tick input⟩ ∧ s.process i = .running w ∧
    w.CommitsBatch s.store input

theorem resting_step {action : Action} (resting : (s.process i).Resting)
    (unstarted : action ≠ ⟨i, .startTick⟩) (stepped : step log config s action = some t) :
    (t.process i).Resting := by
  rcases step_effect stepped with ⟨store, process, effect, rfl⟩
  by_cases mine : i = action.worker
  · subst mine
    rw [Interleaving.update_process_self]
    refine resting.effect (fun started => unstarted ?_) effect
    rw [← started]
  · rw [Interleaving.update_process_of_ne _ _ mine]
    exact resting

theorem resting_run (resting : (s.process i).Resting)
    (unstarted : ∀ action ∈ actions, action ≠ ⟨i, .startTick⟩)
    (performed : Execution.run (step log config) actions s = some t) : (t.process i).Resting := by
  induction actions generalizing s with
  | nil =>
    cases performed
    exact resting
  | cons action actions ih =>
    rcases Option.bind_eq_some_iff.mp performed with ⟨next, stepped, rest⟩
    exact ih (resting_step resting (unstarted _ List.mem_cons_self) stepped)
      (fun later member => unstarted later (List.mem_cons_of_mem _ member)) rest

/-- A tick that is still under way has not committed its batch. -/
theorem uncommitted_of_ticking {during : List Action}
    (unstarted : ∀ action ∈ during, action ≠ ⟨i, .startTick⟩)
    (performed : Execution.run (step log config) during s = some t)
    (ticking : ¬ (t.process i).Resting) :
    Allowed (step log config) (fun state action => ¬ state.CommitsBatch i action)
      during s := by
  induction during generalizing s with
  | nil => trivial
  | cons action actions ih =>
    rcases Option.bind_eq_some_iff.mp performed with ⟨next, stepped, rest⟩
    have later : ∀ action ∈ actions, action ≠ ⟨i, .startTick⟩ := fun action member =>
      unstarted action (List.mem_cons_of_mem _ member)
    constructor
    · rintro ⟨w, input, rfl, running, commits⟩
      apply ticking
      refine resting_run ?_ later rest
      rcases step_effect stepped with ⟨store, process, effect, rfl⟩
      rw [Interleaving.update_process_self]
      rw [running] at effect
      cases effect with
      | ticks effect => exact commits.resting effect
    · intro next' stepped'
      rw [stepped] at stepped'
      cases stepped'
      exact ih later rest

end System

/-- Whatever the snapshot covers that a tick has read: it returns an error,
without having committed its batch, exactly when the request it ends on, or the
disk, failed it. -/
theorem tick_errs_iff_fails {log : Log} {config : Nat → FlusherConfig} {stream : Option StreamId}
    (streams : ∀ i, (config i).stream = stream) {past during : List Action}
    {before s after : System} {i : Nat} {w w' : Worker} {input : TickInput}
    {result : Except TickError Unit} (reached : System.run log config past = some before)
    (ongoing : Execution.run (System.step log config) during before = some s)
    (sameTick : ∀ action ∈ during, action ≠ ⟨i, .startTick⟩) (running : s.process i = .running w)
    (last : System.step log config s ⟨i, .tick input⟩ = some after)
    (stillRunning : after.process i = .running w') (returned : w'.tick = .idle result) :
    ((∃ error, result = .error error) ∧
        Allowed (System.step log config)
          (fun state action => ¬ state.CommitsBatch i action)
          (during ++ [⟨i, .tick input⟩]) before) ↔
      w.Fails (config i) s.store input := by
  have performed : System.run log config (past ++ during) = some s := by
    unfold System.run at reached ⊢
    rw [run_append, reached]
    exact ongoing
  rcases System.sound_run streams performed with ⟨ordered, holds⟩
  have order := ordered.own i
  have sound := holds.own i
  rw [running] at order sound
  rcases System.step_effect last with ⟨store, process, effect, rfl⟩
  rw [Interleaving.update_process_self] at stillRunning
  subst stillRunning
  change ProcessEffect log (config i) s.store (s.process i) (.tick input) store (.running w')
    at effect
  rw [running] at effect
  cases effect with
  | ticks effect =>
      have ticking : ¬ (s.process i).Resting := by
        rw [running]
        rintro ⟨result, idle⟩
        cases effect <;> simp_all
      rw [← Worker.TickEffect.errs_iff ordered.shared order (streams i) sound effect returned,
        allowed_append ongoing]
      refine and_congr_right fun _ => ⟨?_, ?_⟩
      · rintro ⟨-, uncommitted, -⟩ commits
        exact uncommitted ⟨w, input, rfl, running, commits⟩
      · intro uncommitted
        refine ⟨System.uncommitted_of_ticking sameTick ongoing ticking, ?_, fun _ _ => trivial⟩
        rintro ⟨w₁, input₁, same, running₁, commits⟩
        rw [running] at running₁
        cases running₁
        cases same
        exact uncommitted commits

/-- Worker 0 consumes partition 0 and commits its record.  Worker 1 consumes
partition 1 of the same stream; its tick reads a snapshot that is ahead of it on
partition 0, commits its own batch above it with a routing file that does not
know worker 0's edge, and returns without an error. -/
theorem split_goes_unnoticed :
    ∃ (before after : System) (w w' : Worker) (snapshot : SnapshotMeta) (file : PuffinBase),
      System.run (lines 1)
          (fun _ => { worker true with stream := some ⟨"log", "edges", none⟩ })
          (boot 0 ++ boot 1 ++ ingest 0 0 1 ++ lead 0 4 ++
            ingest 1 1 1 ++ [⟨1, .startTick⟩]) = some before ∧
        before.process 1 = .running w ∧ w.tick = .readLatest ∧
        w.position.get 0 < before.store.positionAt before.store.count 0 ∧
        Execution.run (System.step (lines 1)
            (fun _ => { worker true with stream := some ⟨"log", "edges", none⟩ }))
          (List.replicate 4 ⟨1, .tick leading⟩) before = some after ∧
        after.process 1 = .running w' ∧ w'.tick = .idle (.ok ()) ∧
        after.store.snapshots[2]? = some snapshot ∧ snapshot.dataFiles ≠ [] ∧
        snapshot.streamPosition.get 0 = 1 ∧ snapshot.runs.length = 1 ∧
        after.store.puffins[snapshot.puffinPath.uuid]? = some file ∧
        file.sharedParent 2 = none := by
  have reaches : (System.run (lines 1)
      (fun _ => { worker true with stream := some ⟨"log", "edges", none⟩ })
      (boot 0 ++ boot 1 ++ ingest 0 0 1 ++ lead 0 4 ++
        ingest 1 1 1 ++ [⟨1, .startTick⟩])).any (fun before =>
      (before.process 1).worker?.any fun w => w.tick.reading &&
        decide (w.position.get 0 < before.store.positionAt before.store.count 0) &&
      (Execution.run (System.step (lines 1)
          (fun _ => { worker true with stream := some ⟨"log", "edges", none⟩ }))
        (List.replicate 4 ⟨1, .tick leading⟩) before).any fun after =>
      (after.process 1).worker?.any fun w' => (w'.tick.result?.any fun result => result.isOk) &&
      after.store.snapshots[2]?.any fun snapshot =>
        !snapshot.dataFiles.isEmpty && decide (snapshot.streamPosition.get 0 = 1) &&
          decide (snapshot.runs.length = 1) &&
          after.store.puffins[snapshot.puffinPath.uuid]?.any fun file =>
            decide (file.sharedParent 2 = none)) = true := by
    decide
  rcases (Option.any_eq_true _ _).mp reaches with ⟨before, performed, rest⟩
  rcases (Option.any_eq_true _ _).mp rest with ⟨w, running, rest⟩
  simp only [Bool.and_eq_true, decide_eq_true_eq] at rest
  rcases rest with ⟨⟨reads, ahead⟩, rest⟩
  rcases (Option.any_eq_true _ _).mp rest with ⟨after, continued, rest⟩
  rcases (Option.any_eq_true _ _).mp rest with ⟨w', stillRunning, rest⟩
  rw [Bool.and_eq_true] at rest
  rcases rest with ⟨returned, rest⟩
  rcases (Option.any_eq_true _ _).mp returned with ⟨result, idle, fine⟩
  rcases (Option.any_eq_true _ _).mp rest with ⟨snapshot, stored, rest⟩
  simp only [Bool.and_eq_true, Bool.not_eq_true', decide_eq_true_eq] at rest
  rcases rest with ⟨⟨⟨files, position⟩, single⟩, rest⟩
  rcases (Option.any_eq_true _ _).mp rest with ⟨file, held, unknown⟩
  refine ⟨before, after, w, w', snapshot, file, performed, Process.eq_running running,
    TickState.eq_readLatest reads, ahead, continued, Process.eq_running stillRunning, ?_, stored,
    by simpa using files, position, single, held, by simpa using unknown⟩
  cases result with
  | ok => exact TickState.eq_idle idle
  | error error => cases fine

/-- In the same group the upload of worker 1 fails: the tick returns an error. -/
theorem tick_errs_iff_fails_on_upload :
    let config := fun _ : Nat => { worker true with stream := some ⟨"log", "edges", none⟩ }
    let step := System.step (lines 1) config
    let failing := { leading with reply := .failed }
    ∃ (before s after : System) (w w' : Worker) (error : TickError),
      System.run (lines 1) config (boot 0 ++ boot 1 ++ ingest 0 0 1 ++
          lead 0 4 ++ ingest 1 1 1 ++ [⟨1, .startTick⟩]) = some before ∧
        Execution.run step [⟨1, .tick leading⟩] before = some s ∧
        s.process 1 = .running w ∧ w.position.get 0 < s.store.positionAt s.store.count 0 ∧
        step s ⟨1, .tick failing⟩ = some after ∧ after.process 1 = .running w' ∧
        w'.tick = .idle (.error error) ∧
        (Allowed step (fun state action => ¬ state.CommitsBatch 1 action)
            [⟨1, .tick leading⟩, ⟨1, .tick failing⟩] before ↔
          w.Fails (config 1) s.store failing) := by
  intro config step failing
  have reaches : (System.run (lines 1) config (boot 0 ++ boot 1 ++
      ingest 0 0 1 ++ lead 0 4 ++ ingest 1 1 1 ++
      [⟨1, .startTick⟩])).any (fun before =>
      (Execution.run step [⟨1, .tick leading⟩] before).any fun s =>
      (s.process 1).worker?.any fun w =>
      decide (w.position.get 0 < s.store.positionAt s.store.count 0) &&
      (step s ⟨1, .tick failing⟩).any fun after =>
      (after.process 1).worker?.any fun w' => w'.tick.result?.any fun result => !result.isOk) =
        true := by
    decide
  simp only [Option.any_eq_true, Bool.and_eq_true, decide_eq_true_eq] at reaches
  obtain ⟨before, reached, s, ongoing, w, running, behind, after, last, w', stillRunning, result,
    returned, fails⟩ := reaches
  have spec := tick_errs_iff_fails (fun _ => rfl) reached ongoing (by decide)
    (Process.eq_running running) last (Process.eq_running stillRunning) (TickState.eq_idle returned)
  cases result with
  | ok => cases fails
  | error error =>
    refine ⟨before, s, after, w, w', error, reached, ongoing, Process.eq_running running, behind,
      last, Process.eq_running stillRunning, TickState.eq_idle returned, ?_⟩
    simpa using spec

end Blaze
