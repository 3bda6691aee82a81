import Blaze.Storage.Tick

/-!
# What a step of a tick can do

Between two requests a tick decides what to ask for next.  The decisions about
merges end in one of four ways, whichever of them came last, and every reply of
the store has one of a few effects.  Properties of ticks are proved from these
two lists.
-/

namespace Blaze.Worker

variable {w w' : Worker} {seen : Observed} {again diskOk : Bool} {publication : Publication}
  {snapshot : SnapshotMeta} {batch : Batch} {sequence : Nat} {config : FlusherConfig}
  {result : Except TickError (PuffinBase × Layer)}

/-- A merge just planned over the current stack. -/
structure Planned (w : Worker) (pending : PendingMerge) (current : LocalLayers)
    (range : RunRange) (sequence : Nat) : Prop where
  layers : w.layers = some current
  committed : current.fullyCommitted = true
  within : range.Within 2 current.runs.length
  sliced : current.base.slice range.start range.stop = .ok pending.stack
  finished : pending.finished = none
  inputs : pending.inputs = ((current.runs.take range.stop).drop range.start).map LocalRun.path
  minSequence : pending.minSequence =
    ((((current.runs.take range.stop).drop range.start).head?).map LocalRun.minSequence).getD 0
  maxSequence : pending.maxSequence =
    ((((current.runs.take range.stop).drop range.start).getLast?).map LocalRun.maxSequence).getD 0
  path : pending.path = .merged sequence pending.level
  picked : ∃ fanout maxRuns,
    pickMerge (current.runs.map LocalRun.level) fanout maxRuns = some range
  level : pending.level = mergedLevel ((current.runs.take range.stop).drop range.start)

/-- The merge in flight after a decision: none, the one that was there, or one
just planned. -/
inductive MergeLeft (w : Worker) (sequence : Nat) : Option PendingMerge → Prop
  | none : MergeLeft w sequence none
  | kept : MergeLeft w sequence w.pendingMerge
  | planned {pending : PendingMerge} {current : LocalLayers} {range : RunRange}
      (plan : Planned w pending current range sequence) : MergeLeft w sequence (some pending)

/-- How a tick goes on after a decision about merges. -/
inductive Proceeds (w : Worker) (seen : Observed) : Worker → Prop
  | refused {current : LocalLayers} {range : RunRange} {text : String}
      (layers : w.layers = some current) (within : range.Within 2 current.runs.length)
      (unsliced : current.base.slice range.start range.stop = .error text)
      {pending : Option PendingMerge} (left : MergeLeft w seen.sequence pending) :
      Proceeds w seen
        { w with pendingMerge := pending, tick := .idle (.error (.message text)) }
  | nothing (empty : w.buffer.sealed = []) {pending : Option PendingMerge}
      (left : MergeLeft w seen.sequence pending) :
      Proceeds w seen { w with pendingMerge := pending, tick := .idle (.ok ()) }
  | batch (nonempty : w.buffer.sealed ≠ []) {pending : Option PendingMerge}
      (left : MergeLeft w seen.sequence pending) :
      Proceeds w seen { w with
        pendingMerge := pending
        tick := .putData seen (Batch.new seen w.buffer.sealed) }
  | await {pending : Option PendingMerge} (left : MergeLeft w seen.sequence pending) :
      Proceeds w seen { w with pendingMerge := pending, tick := .awaitMerge seen }
  | upload {pending : PendingMerge} {file : PuffinBase} {current : LocalLayers}
      {range : RunRange} (again : Bool) (ready : w.pendingMerge = some pending)
      (finished : pending.finished = some (.ok file)) (layers : w.layers = some current)
      (located : locateRunWindow current.runs pending.inputs = some range)
      (committed : current.fullyCommitted = true) :
      Proceeds w seen { w with
        pendingMerge := none
        tick := .putMerge seen again ⟨pending, file, current, range⟩ }

theorem MergeLeft.of_cleared {pending : Option PendingMerge}
    (left : MergeLeft { w with pendingMerge := Option.none } sequence pending) :
    MergeLeft w sequence pending := by
  cases left with
  | none => exact .none
  | kept => exact .none
  | planned plan =>
    exact .planned ⟨plan.layers, plan.committed, plan.within, plan.sliced, plan.finished,
      plan.inputs, plan.minSequence, plan.maxSequence, plan.path, plan.picked, plan.level⟩

theorem Proceeds.of_cleared (proceeds : Proceeds { w with pendingMerge := none } seen w') :
    Proceeds w seen w' := by
  cases proceeds with
  | refused layers within unsliced left =>
    exact Proceeds.refused (w := w) layers within unsliced left.of_cleared
  | nothing empty left => exact Proceeds.nothing (w := w) empty left.of_cleared
  | batch nonempty left => exact Proceeds.batch (w := w) nonempty left.of_cleared
  | await left => exact Proceeds.await (w := w) left.of_cleared
  | upload again ready => cases ready

/-- Deciding about merges does not touch the stack. -/
theorem Proceeds.layers_eq (proceeds : w.Proceeds seen w') : w'.layers = w.layers := by
  cases proceeds <;> rfl

theorem batch_proceeds (w : Worker) (seen : Observed) : Proceeds w seen (w.batch seen) := by
  unfold batch
  split
  · next empty => exact .nothing (List.isEmpty_iff.mp empty) .kept
  · next nonempty => exact .batch (by simpa using nonempty) .kept

/-- Starting a merge changes at most the merge in flight. -/
theorem startMerge_cases (config : FlusherConfig) (w : Worker) (sequence : Nat) :
    w.startMerge config sequence = .ok w ∨
      (∃ pending current range, Planned w pending current range sequence ∧
        w.startMerge config sequence = .ok { w with pendingMerge := some pending }) ∨
      ∃ (current : LocalLayers) (range : RunRange) (text : String), w.layers = some current ∧
        range.Within 2 current.runs.length ∧
        current.base.slice range.start range.stop = .error text ∧
        w.startMerge config sequence = .error (.message text) := by
  unfold startMerge
  split
  · exact Or.inl rfl
  · cases layers : w.layers with
    | none => exact Or.inl rfl
    | some current =>
      dsimp only
      split
      · exact Or.inl rfl
      · next committed =>
          split
          · exact Or.inl rfl
          · next range picked =>
              have within := pickMerge_within picked
              rw [List.length_map] at within
              cases sliced : current.base.slice range.start range.stop with
              | error text =>
                exact Or.inr (Or.inr ⟨current, range, text, rfl, within, sliced, rfl⟩)
              | ok stack =>
                refine Or.inr (Or.inl ⟨_, current, range, ⟨layers, ?_, within, sliced, rfl,
                  rfl, rfl, rfl, rfl, ⟨_, _, picked⟩, rfl⟩, rfl⟩)
                simpa using committed

theorem afterAdopt_proceeds (config : FlusherConfig) (w : Worker) (seen : Observed)
    (again : Bool) : Proceeds w seen (w.afterAdopt config seen again) := by
  unfold afterAdopt
  cases again with
  | true => exact batch_proceeds w seen
  | false =>
    rw [if_neg (by decide)]
    rcases startMerge_cases config w seen.sequence with
      unchanged | ⟨pending, current, range, plan, started⟩ |
        ⟨current, range, text, layers, within, unsliced, failed⟩
    · rw [unchanged]
      dsimp only
      split
      · exact .await .kept
      · exact batch_proceeds w seen
    · rw [started]
      dsimp only
      split
      · exact .await (.planned plan)
      · unfold batch
        split
        · next empty =>
            exact Proceeds.nothing (w := w) (List.isEmpty_iff.mp empty) (.planned plan)
        · next nonempty => exact .batch (by simpa using nonempty) (.planned plan)
    · rw [failed]
      exact .refused layers within unsliced .kept

theorem adoptMerge_proceeds (config : FlusherConfig) (w : Worker) (seen : Observed)
    (again : Bool) : Proceeds w seen (w.adoptMerge config seen again) := by
  have cleared := (afterAdopt_proceeds config { w with pendingMerge := none } seen again).of_cleared
  unfold adoptMerge
  cases ready : w.pendingMerge with
  | none => exact afterAdopt_proceeds config w seen again
  | some pending =>
    dsimp only
    cases finished : pending.finished with
    | none => exact afterAdopt_proceeds config w seen again
    | some result =>
      dsimp only
      cases result with
      | error error => exact cleared
      | ok file =>
        cases layers : w.layers with
        | none =>
          rw [layers] at cleared
          exact cleared
        | some current =>
          dsimp only
          cases located : locateRunWindow current.runs pending.inputs with
          | none =>
            rw [layers] at cleared
            exact cleared
          | some range =>
            dsimp only
            split
            · next committed =>
                have upload := @Proceeds.upload w seen _ _ _ _ again ready
                  finished layers located committed
                rw [layers] at upload
                exact upload
            · rw [layers] at cleared
              exact cleared

/-- How the routing file of a batch comes about: a copy of the whole map in RAM
mode, and a fold otherwise. -/
inductive CommitFold (config : FlusherConfig) (w : Worker) (sequence : Nat) (diskOk : Bool) :
    Worker → Except TickError (PuffinBase × Layer) → Prop
  | ram (ram : config.diskMode = false) :
      CommitFold config w sequence diskOk
        { w with forest := w.forest.setTier w.forest.tier.compactLocked.1 }
        (.ok (writeBase w.forest.tier.compactLocked.2, .base))
  | fails {tier : Tier LayeredBase} (disk : config.diskMode = true) (broken : diskOk = false)
      (attempt : tier = w.forest.tier.compactLocked.1 ∨
        tier = w.forest.tier.streamMemtable.1) :
      CommitFold config w sequence diskOk { w with forest := w.forest.setTier tier }
        (.error .disk)
  | writes {forest : ScopedForest LayeredBase} {next : LocalLayers} {file : PuffinBase}
      {layer : Layer} (disk : config.diskMode = true) (works : diskOk = true)
      (written : FoldWrites w.forest sequence w.layers forest next file layer) :
      CommitFold config w sequence diskOk { w with forest, layers := some next }
        (.ok (file, layer))

theorem foldForCommit_effect (folded : w.foldForCommit config sequence diskOk = (w', result)) :
    CommitFold config w sequence diskOk w' result := by
  unfold foldForCommit at folded
  have effect := fold_effect config w.forest w.layers sequence true diskOk
  generalize fold config w.forest w.layers sequence true diskOk = outcome at effect folded
  cases effect with
  | kept unneeded =>
    cases folded
    exact .ram (by simpa using unneeded)
  | fails disk broken attempt =>
    cases folded
    exact .fails disk broken attempt
  | writes disk works written =>
    cases folded
    exact .writes disk works written

/-- A fold for a commit touches the forest and the stack only. -/
theorem foldForCommit_frame (folded : w.foldForCommit config sequence diskOk = (w', result)) :
    ∃ forest layers, w' = { w with forest, layers } := by
  cases foldForCommit_effect folded with
  | ram | fails | writes => exact ⟨_, _, rfl⟩

/-- A follower ends its tick with a fold. -/
theorem follow_effect (config : FlusherConfig) (w : Worker) (sequence : Nat) (diskOk : Bool) :
    ∃ folded, FoldEffect config w.forest w.layers sequence false diskOk folded ∧
      w.follow config sequence diskOk = { w with
        forest := folded.forest, layers := folded.layers
        tick := .idle (folded.file.map fun _ => ()) } :=
  ⟨_, fold_effect .., rfl⟩

/-! ## Replies -/

/-- The store after an upload that may or may not have arrived. -/
def Uploaded (store after store' : ObjectStore) : Prop :=
  store' = store ∨ store' = after

/-- What one step of a tick does to the store and the worker. -/
inductive TickEffect (config : FlusherConfig) (input : TickInput) (store : ObjectStore)
    (w : Worker) : ObjectStore → Worker → Prop
  | readFails (stands : w.tick = .readLatest) (reply : input.reply ≠ .done) :
      TickEffect config input store w store (w.finish (.error .request))
  | readRefused {cachedSeq : Nat} {text : String} (stands : w.tick = .readLatest)
      (reply : input.reply = .done)
      (found : SnapshotCatalog.latest store.snapshots w.cachedSeq = (cachedSeq, .error text)) :
      TickEffect config input store w store
        ({ w with cachedSeq }.finish (.error (.message text)))
  | follows {cachedSeq : Nat} {latest : Option SnapshotMeta} (stands : w.tick = .readLatest)
      (reply : input.reply = .done)
      (found : SnapshotCatalog.latest store.snapshots w.cachedSeq = (cachedSeq, .ok latest))
      (follower : input.leader = false) :
      TickEffect config input store w store
        (({ w with cachedSeq }.dropCovered latest).follow config (Observed.new latest).sequence
          input.diskOk)
  | leads {cachedSeq : Nat} {latest : Option SnapshotMeta} {w' : Worker}
      (stands : w.tick = .readLatest) (reply : input.reply = .done)
      (found : SnapshotCatalog.latest store.snapshots w.cachedSeq = (cachedSeq, .ok latest))
      (leader : input.leader = true)
      (proceeds : Proceeds ({ w with cachedSeq }.dropCovered latest) (Observed.new latest) w') :
      TickEffect config input store w store w'
  | putMergeFails {seen : Observed} {again : Bool} {publication : Publication}
      {store' : ObjectStore} (stands : w.tick = .putMerge seen again publication)
      (reply : input.reply ≠ .done)
      (uploaded : Uploaded store (store.putPuffin publication.file) store') :
      TickEffect config input store w store' (w.finish (.error .request))
  | undescribable {seen : Observed} {again : Bool} {publication : Publication} {w' : Worker}
      (stands : w.tick = .putMerge seen again publication) (reply : input.reply = .done)
      (proceeds : Proceeds w seen w') :
      TickEffect config input store w (store.putPuffin publication.file) w'
  | putMerge {seen : Observed} {again : Bool} {publication : Publication} {runs : List RunMeta}
      (stands : w.tick = .putMerge seen again publication) (reply : input.reply = .done)
      (described : spliceRunSet publication.current.runs publication.range
        (publication.mergedMeta (store.freshPath seen.sequence)) seen.sequence = some runs) :
      TickEffect config input store w (store.putPuffin publication.file)
        { w with
          tick := .commitMerge seen again publication
            (mergeSnapshot config seen (store.freshPath seen.sequence) runs input.nowMs) }
  | commitMergeFails {seen : Observed} {again : Bool} {publication : Publication}
      {snapshot : SnapshotMeta} (stands : w.tick = .commitMerge seen again publication snapshot)
      (reply : input.reply = .failed) :
      TickEffect config input store w store (w.finish (.error .request))
  | commitMergeLost {seen : Observed} {again : Bool} {publication : Publication}
      {snapshot : SnapshotMeta} (stands : w.tick = .commitMerge seen again publication snapshot)
      (reply : input.reply = .lost) :
      TickEffect config input store w (store.commit snapshot) (w.finish (.error .request))
  | commitMergeConflict {seen : Observed} {again : Bool} {publication : Publication}
      {snapshot : SnapshotMeta} {w' : Worker}
      (stands : w.tick = .commitMerge seen again publication snapshot)
      (reply : input.reply = .done) (taken : snapshot.sequence ∈ store.snapshots)
      (proceeds : Proceeds w seen w') : TickEffect config input store w store w'
  | spliceFails {seen : Observed} {again : Bool} {publication : Publication}
      {snapshot : SnapshotMeta} {error : TickError}
      (stands : w.tick = .commitMerge seen again publication snapshot)
      (reply : input.reply = .done) (free : snapshot.sequence ∉ store.snapshots)
      (cause : (input.diskOk = false ∧ error = .disk) ∨ ∃ text, error = .message text ∧
        publication.current.base.spliced publication.range.start publication.range.stop
          publication.file = .error text) :
      TickEffect config input store w (store.commit snapshot)
        ({ w with cachedSeq := max w.cachedSeq snapshot.sequence }.finish (.error error))
  | commitMerge {seen : Observed} {again : Bool} {publication : Publication}
      {snapshot : SnapshotMeta} {spliced : LayeredBase} {w' : Worker}
      (stands : w.tick = .commitMerge seen again publication snapshot)
      (reply : input.reply = .done) (works : input.diskOk = true)
      (free : snapshot.sequence ∉ store.snapshots)
      (resolved : publication.current.base.spliced publication.range.start
        publication.range.stop publication.file = .ok spliced)
      (proceeds : Proceeds { w with
        cachedSeq := max w.cachedSeq snapshot.sequence
        forest := w.forest.swapBase spliced
        layers := some (splicedLayers spliced snapshot.runs publication) } seen.next w') :
      TickEffect config input store w (store.commit snapshot) w'
  | awaits {seen : Observed} {w' : Worker} (stands : w.tick = .awaitMerge seen)
      (proceeds : Proceeds w seen w') : TickEffect config input store w store w'
  | putDataFails {seen : Observed} {batch : Batch} {store' : ObjectStore}
      (stands : w.tick = .putData seen batch) (reply : input.reply ≠ .done)
      (uploaded : Uploaded store (store.putData batch.rows) store') :
      TickEffect config input store w store' (w.finish (.error .request))
  | foldFails {seen : Observed} {batch : Batch} {w' : Worker} {error : TickError}
      (stands : w.tick = .putData seen batch) (reply : input.reply = .done)
      (folded : w.foldForCommit config seen.sequence input.diskOk = (w', .error error)) :
      TickEffect config input store w (store.putData batch.rows) (w'.finish (.error error))
  | putData {seen : Observed} {batch : Batch} {w' : Worker} {file : PuffinBase} {layer : Layer}
      (stands : w.tick = .putData seen batch) (reply : input.reply = .done)
      (folded : w.foldForCommit config seen.sequence input.diskOk = (w', .ok (file, layer))) :
      TickEffect config input store w (store.putData batch.rows)
        { w' with tick := .putPuffin seen batch (store.freshPath seen.sequence) file layer }
  | putPuffinFails {seen : Observed} {batch : Batch} {dataPath : ObjectPath} {file : PuffinBase}
      {layer : Layer} {store' : ObjectStore}
      (stands : w.tick = .putPuffin seen batch dataPath file layer)
      (reply : input.reply ≠ .done) (uploaded : Uploaded store (store.putPuffin file) store') :
      TickEffect config input store w store' (w.finish (.error .request))
  | refused {seen : Observed} {batch : Batch} {dataPath : ObjectPath} {file : PuffinBase}
      {layer : Layer} {text : String} (stands : w.tick = .putPuffin seen batch dataPath file layer)
      (reply : input.reply = .done)
      (checked : advances seen (w.dataSnapshot config seen batch dataPath
        (store.freshPath seen.sequence) layer input.nowMs) = .error text) :
      TickEffect config input store w (store.putPuffin file)
        (w.finish (.error (.message text)))
  | putPuffin {seen : Observed} {batch : Batch} {dataPath : ObjectPath} {file : PuffinBase}
      {layer : Layer} (stands : w.tick = .putPuffin seen batch dataPath file layer)
      (reply : input.reply = .done)
      (checked : advances seen (w.dataSnapshot config seen batch dataPath
        (store.freshPath seen.sequence) layer input.nowMs) = .ok ()) :
      TickEffect config input store w (store.putPuffin file)
        { w with
          tick := .commitData seen batch (w.dataSnapshot config seen batch dataPath
            (store.freshPath seen.sequence) layer input.nowMs) }
  | commitDataFails {seen : Observed} {batch : Batch} {snapshot : SnapshotMeta}
      (stands : w.tick = .commitData seen batch snapshot) (reply : input.reply = .failed) :
      TickEffect config input store w store (w.finish (.error .request))
  | commitDataLost {seen : Observed} {batch : Batch} {snapshot : SnapshotMeta}
      (stands : w.tick = .commitData seen batch snapshot) (reply : input.reply = .lost) :
      TickEffect config input store w (store.commit snapshot) (w.finish (.error .request))
  | commitDataConflict {seen : Observed} {batch : Batch} {snapshot : SnapshotMeta}
      (stands : w.tick = .commitData seen batch snapshot) (reply : input.reply = .done)
      (taken : snapshot.sequence ∈ store.snapshots) :
      TickEffect config input store w store (w.finish (.ok ()))
  | commitData {seen : Observed} {batch : Batch} {snapshot : SnapshotMeta}
      (stands : w.tick = .commitData seen batch snapshot) (reply : input.reply = .done)
      (free : snapshot.sequence ∉ store.snapshots) :
      TickEffect config input store w (store.commit snapshot)
        (w.batchCommitted batch snapshot)

section Effects

variable {config : FlusherConfig} {input : TickInput} {store store' : ObjectStore} {w w' : Worker}

theorem observe_effect {cachedSeq : Nat} {latest : Option SnapshotMeta}
    (stands : w.tick = .readLatest) (reply : input.reply = .done)
    (found : SnapshotCatalog.latest store.snapshots w.cachedSeq = (cachedSeq, .ok latest)) :
    TickEffect config input store w store ({ w with cachedSeq }.observe config latest input) := by
  unfold observe
  dsimp only
  split
  · next leader =>
      exact .leads stands reply found leader (adoptMerge_proceeds config _ _ false)
  · next follower => exact .follows stands reply found (by simpa using follower)

theorem publishMerge_effect (stands : w.tick = .putMerge seen again publication)
    (reply : input.reply = .done) :
    TickEffect config input store w (store.putPuffin publication.file)
      (w.publishMerge config seen again publication (store.freshPath seen.sequence)
        input.nowMs) := by
  unfold publishMerge
  split
  · exact .undescribable stands reply (afterAdopt_proceeds config w seen again)
  · next runs described => exact .putMerge stands reply described

theorem spliceMerge_effect (stands : w.tick = .commitMerge seen again publication snapshot)
    (reply : input.reply = .done) (free : snapshot.sequence ∉ store.snapshots) :
    TickEffect config input store w (store.commit snapshot)
      ({ w with cachedSeq := max w.cachedSeq snapshot.sequence }.spliceMerge config seen again
        publication snapshot input.diskOk) := by
  unfold spliceMerge
  split
  · next failed => exact .spliceFails stands reply free (Or.inl ⟨by simpa using failed, rfl⟩)
  · next works =>
    cases resolved : publication.current.base.spliced publication.range.start
        publication.range.stop publication.file with
    | error text => exact .spliceFails stands reply free (Or.inr ⟨text, rfl, resolved⟩)
    | ok spliced =>
      exact .commitMerge stands reply (by simpa using works) free resolved
        (afterAdopt_proceeds config _ _ again)

theorem readStep_effect (stands : w.tick = .readLatest) :
    TickEffect config input store w (w.readStep config input store).1
      (w.readStep config input store).2 := by
  unfold readStep
  cases reply : input.reply with
  | done =>
    cases found : SnapshotCatalog.latest store.snapshots w.cachedSeq with
    | mk cachedSeq result =>
      cases result with
      | error text => exact .readRefused stands reply found
      | ok latest => exact observe_effect stands reply found
  | failed | lost => exact .readFails stands (by simp [reply])

theorem putMergeStep_effect (stands : w.tick = .putMerge seen again publication) :
    TickEffect config input store w (w.putMergeStep config input store seen again publication).1
      (w.putMergeStep config input store seen again publication).2 := by
  unfold putMergeStep
  cases reply : input.reply with
  | done => exact publishMerge_effect stands reply
  | failed => exact .putMergeFails stands (by simp [reply]) (Or.inl rfl)
  | lost => exact .putMergeFails stands (by simp [reply]) (Or.inr rfl)

theorem commitMergeStep_effect (stands : w.tick = .commitMerge seen again publication snapshot) :
    TickEffect config input store w
      (w.commitMergeStep config input store seen again publication snapshot).1
      (w.commitMergeStep config input store seen again publication snapshot).2 := by
  unfold commitMergeStep
  cases reply : input.reply with
  | done =>
    by_cases taken : snapshot.sequence ∈ store.snapshots
    · rw [SnapshotCatalog.commit_of_mem taken]
      exact .commitMergeConflict stands reply taken (afterAdopt_proceeds config w seen again)
    · rw [SnapshotCatalog.commit_of_not_mem taken]
      exact spliceMerge_effect stands reply taken
  | failed => exact .commitMergeFails stands reply
  | lost => exact .commitMergeLost stands reply

theorem putDataStep_effect (stands : w.tick = .putData seen batch) :
    TickEffect config input store w (w.putDataStep config input store seen batch).1
      (w.putDataStep config input store seen batch).2 := by
  unfold putDataStep
  cases reply : input.reply with
  | done =>
    cases folded : w.foldForCommit config seen.sequence input.diskOk with
    | mk w1 written =>
      cases written with
      | error error => exact .foldFails stands reply folded
      | ok file => exact .putData stands reply folded
  | failed => exact .putDataFails stands (by simp [reply]) (Or.inl rfl)
  | lost => exact .putDataFails stands (by simp [reply]) (Or.inr rfl)

theorem putPuffinStep_effect {dataPath : ObjectPath} {file : PuffinBase} {layer : Layer}
    (stands : w.tick = .putPuffin seen batch dataPath file layer) :
    TickEffect config input store w
      (w.putPuffinStep config input store seen batch dataPath file layer).1
      (w.putPuffinStep config input store seen batch dataPath file layer).2 := by
  unfold putPuffinStep
  cases reply : input.reply with
  | done =>
    cases checked : advances seen (w.dataSnapshot config seen batch dataPath
        (store.freshPath seen.sequence) layer input.nowMs) with
    | error text =>
      simp only [checked]
      exact .refused stands reply checked
    | ok accepted =>
      simp only [checked]
      exact .putPuffin stands reply checked
  | failed => exact .putPuffinFails stands (by simp [reply]) (Or.inl rfl)
  | lost => exact .putPuffinFails stands (by simp [reply]) (Or.inr rfl)

theorem commitDataStep_effect (stands : w.tick = .commitData seen batch snapshot) :
    TickEffect config input store w (w.commitDataStep input store batch snapshot).1
      (w.commitDataStep input store batch snapshot).2 := by
  unfold commitDataStep
  cases reply : input.reply with
  | done =>
    by_cases taken : snapshot.sequence ∈ store.snapshots
    · rw [SnapshotCatalog.commit_of_mem taken]
      exact .commitDataConflict stands reply taken
    · rw [SnapshotCatalog.commit_of_not_mem taken]
      exact .commitData stands reply taken
  | failed => exact .commitDataFails stands reply
  | lost => exact .commitDataLost stands reply

theorem TickEffect.of_step {step : ObjectStore × Worker}
    (effect : TickEffect config input store w step.1 step.2)
    (stepped : some step = some (store', w')) : TickEffect config input store w store' w' := by
  cases stepped
  exact effect

/-- Every step of a tick has one of these effects. -/
theorem tickStep_effect (stepped : w.tickStep config input store = some (store', w')) :
    TickEffect config input store w store' w' := by
  unfold tickStep at stepped
  cases stands : w.tick with
  | idle result =>
    rw [stands] at stepped
    cases stepped
  | readLatest =>
    rw [stands] at stepped
    exact (readStep_effect stands).of_step stepped
  | putMerge seen again publication =>
    rw [stands] at stepped
    exact (putMergeStep_effect stands).of_step stepped
  | commitMerge seen again publication snapshot =>
    rw [stands] at stepped
    exact (commitMergeStep_effect stands).of_step stepped
  | awaitMerge seen =>
    rw [stands] at stepped
    dsimp only at stepped
    split at stepped
    · cases stepped
      exact .awaits stands (adoptMerge_proceeds config w seen true)
    · cases stepped
  | putData seen batch =>
    rw [stands] at stepped
    exact (putDataStep_effect stands).of_step stepped
  | putPuffin seen batch dataPath file layer =>
    rw [stands] at stepped
    exact (putPuffinStep_effect stands).of_step stepped
  | commitData seen batch snapshot =>
    rw [stands] at stepped
    exact (commitDataStep_effect stands).of_step stepped

end Effects

end Blaze.Worker
