import Blaze.Storage.Content
import Blaze.Storage.LocalDir
import Blaze.System.Retained
import Blaze.System.WorkerHistory

/-!
# The files behind the stack

Every run of the stack names a file, and the layer at its place is the mapping of that
file.  A rebuilt run is written first and the files it was rebuilt from are removed
after, so a rebuilt run that takes the name of one of them loses its own file.  This is
the only way in which a file is lost.
-/

namespace Blaze

open Execution Script

variable {path : LocalPath} {sequence observed : Nat} {seen : Observed} {publication : Publication}
  {dir : LocalDir} {config : FlusherConfig} {w w' : Worker} {folded : Folded} {again : Bool}
  {snapshot : SnapshotMeta} {batch : Batch}

/-- Each run names a file that exists and holds the layer at the same place. -/
def LocalLayers.OnDisk (dir : LocalDir) (layers : LocalLayers) : Prop :=
  List.Forall₂ (fun run file => dir run.path = some file) layers.runs layers.base.layers

/-- A worker and its directory. -/
structure LocalState where
  worker : Worker
  dir : LocalDir

/-- What happens to a worker.  A tick meets the store in any state in which metadata
objects lie under the sequences they declare. -/
inductive LocalAct where
  | apply (p : PartitionId) (o : Nat)
  | append
  | finishMerge (diskOk : Bool)
  | startTick
  | tick (input : TickInput) (store : ObjectStore) (named : store.snapshots.Named)

namespace LocalState

/-- One step of the worker and what it does to the directory. -/
def step (log : Log) (config : FlusherConfig) (s : LocalState) : LocalAct → Option LocalState
  | .apply p o => (s.worker.applyRecord log p o).map fun worker => ⟨worker, s.dir⟩
  | .append => s.worker.appendRecord.map fun worker => ⟨worker, s.dir⟩
  | .finishMerge diskOk =>
      (s.worker.finishMerge diskOk).map fun worker => ⟨worker, s.worker.mergeFiles diskOk s.dir⟩
  | .startTick => s.worker.startTick.map fun worker => ⟨worker, s.dir⟩
  | .tick input store _ =>
      (s.worker.tickStep config input store).map fun result =>
        ⟨result.2, s.worker.tickFiles config input store s.dir⟩

/-- The stack is on disk. -/
def OnDisk (s : LocalState) : Prop :=
  ∀ current ∈ s.worker.layers, current.OnDisk s.dir

/-- A step that rebuilds the stack does so under a name that no run of it has. -/
def FoldsApart (config : FlusherConfig) (s : LocalState) : LocalAct → Prop
  | .tick input store _ =>
      ∀ entry ∈ s.worker.folds config input store, entry.2.rebuilds = true →
        ∀ current ∈ s.worker.layers, .folded entry.1 true ∉ current.paths
  | _ => True

instance (config : FlusherConfig) (s : LocalState) : (act : LocalAct) →
    Decidable (s.FoldsApart config act)
  | .tick input store _ =>
      inferInstanceAs (Decidable (∀ entry ∈ s.worker.folds config input store,
        entry.2.rebuilds = true → ∀ current ∈ s.worker.layers,
          .folded entry.1 true ∉ current.paths))
  | .apply _ _ => isTrue trivial
  | .append => isTrue trivial
  | .finishMerge _ => isTrue trivial
  | .startTick => isTrue trivial

end LocalState

/-- The merge that a tick is publishing. -/
def TickState.publication? : TickState → Option Publication
  | .putMerge _ _ publication => some publication
  | .commitMerge _ _ publication _ => some publication
  | _ => none

/-- The stack is on disk, and so is what a merge has written until it is taken into the
stack. -/
structure LocalState.FilesOk (s : LocalState) : Prop where
  stack : s.OnDisk
  merge : ∀ pending ∈ s.worker.pendingMerge, ∀ file,
    pending.finished = some (.ok file) → s.dir pending.path = some file
  publication : ∀ publication ∈ s.worker.tick.publication?,
    s.dir publication.pending.path = some publication.file

/-! ## Directories that agree on the stack -/

section Agree

variable {dir' : LocalDir} {layers : LocalLayers}

theorem LocalLayers.onDisk_iff :
    layers.OnDisk dir ↔
      List.Forall₂ (fun path file => dir path = some file) layers.paths layers.base.layers := by
  unfold LocalLayers.OnDisk LocalLayers.paths
  rw [List.forall₂_map_left_iff]

theorem LocalLayers.OnDisk.congr (held : layers.OnDisk dir)
    (same : ∀ path ∈ layers.paths, dir' path = dir path) : layers.OnDisk dir' := by
  rw [LocalLayers.onDisk_iff] at held ⊢
  generalize layers.paths = paths at held same
  generalize layers.base.layers = files at held
  induction held with
  | nil => exact .nil
  | cons here _ ih =>
    refine .cons ((same _ List.mem_cons_self).trans here) (ih ?_)
    exact fun path member => same path (List.mem_cons_of_mem _ member)

theorem LocalLayers.OnDisk.write (held : layers.OnDisk dir) (file : PuffinBase)
    (apart : path ∉ layers.paths) : layers.OnDisk (dir.write path file) := by
  apply held.congr
  intro other member
  exact LocalDir.write_of_ne (ne_of_mem_of_not_mem member apart)

theorem LocalLayers.OnDisk.unlink (held : layers.OnDisk dir) (apart : path ∉ layers.paths) :
    layers.OnDisk (dir.unlink path) := by
  apply held.congr
  intro other member
  exact LocalDir.unlink_of_ne (ne_of_mem_of_not_mem member apart)

/-- Committing the newest run changes no file. -/
theorem LocalLayers.OnDisk.markCommitted (held : layers.OnDisk dir) (remote : ObjectPath) :
    (layers.markCommitted remote).OnDisk dir := by
  rw [LocalLayers.onDisk_iff] at held ⊢
  rw [LocalLayers.paths_markCommitted]
  exact held

end Agree

/-! ## Folds -/

section Fold

variable {forest : ScopedForest LayeredBase} {layers : Option LocalLayers} {force diskOk : Bool}
  {folded : Folded}

/-- A fold touches the files of the stack and the one it writes. -/
theorem FoldEffect.files_other
    (effect : FoldEffect config forest layers sequence force diskOk folded)
    (unfolded : ∀ compact, path ≠ .folded sequence compact)
    (outside : ∀ current ∈ layers, path ∉ current.paths) :
    folded.files layers sequence dir path = dir path := by
  cases effect with
  | kept => rfl
  | fails => rfl
  | writes disk works written =>
    cases written with
    | rebuilt =>
      change LocalDir.unlinkAll _ _ path = _
      rw [LocalDir.unlinkAll_of_not_mem, LocalDir.write_of_ne (unfolded true)]
      cases layers with
      | none => exact List.not_mem_nil
      | some current => exact outside current rfl
    | layered => exact LocalDir.write_of_ne (unfolded false)

/-- A fold at the next sequence leaves the stack on disk if a rebuilt run takes the name
of none of the runs it was rebuilt from. -/
theorem FoldEffect.files_onDisk
    (effect : FoldEffect config forest layers (observed + 1) force diskOk folded)
    (named : ∀ current ∈ layers, current.Named observed)
    (held : ∀ current ∈ layers, current.OnDisk dir) (apart : folded.rebuilds = true →
      ∀ current ∈ layers, .folded (observed + 1) true ∉ current.paths) :
    ∀ current ∈ folded.layers, current.OnDisk (folded.files layers (observed + 1) dir) := by
  cases effect with
  | kept => exact held
  | fails => exact held
  | @writes _ _ file _ disk works written =>
    rintro _ ⟨rfl⟩
    cases written with
    | rebuilt =>
      refine .cons ?_ .nil
      change LocalDir.unlinkAll _ _ (.folded (observed + 1) true) = some file
      rw [LocalDir.unlinkAll_of_not_mem, LocalDir.write_self]
      cases layers with
      | none => exact List.not_mem_nil
      | some current => exact apart rfl current rfl
    | @layered current _ _ committed =>
      have allCommitted := List.all_eq_true.mp committed
      -- every run is committed, so no name reaches the sequence of the fold
      have fresh : LocalPath.folded (observed + 1) false ∉ current.paths := by
        intro member
        rcases List.mem_map.mp member with ⟨run, inside, same⟩
        have bound := (named current rfl).known run inside (allCommitted run inside)
        rw [same] at bound
        exact Nat.not_succ_le_self _ bound
      apply List.rel_append
      · exact (held current rfl).write file fresh
      · exact .cons (LocalDir.write_self ..) .nil

/-- A rebuilt run that takes the name of a run it was rebuilt from has no file. -/
theorem FoldEffect.files_lost
    (effect : FoldEffect config forest layers sequence force diskOk folded)
    (rebuilt : folded.rebuilds = true) {current : LocalLayers} (held : layers = some current)
    (taken : .folded sequence true ∈ current.paths) (dir : LocalDir) :
    ∃ next, folded.layers = some next ∧ ¬ next.OnDisk (folded.files layers sequence dir) := by
  cases effect with
  | kept => cases rebuilt
  | fails => cases rebuilt
  | writes disk works written =>
    cases written with
    | rebuilt =>
      refine ⟨_, rfl, ?_⟩
      rintro (_ | ⟨here, -⟩)
      change LocalDir.unlinkAll _ _ (.folded sequence true) = some _ at here
      rw [held] at here
      cases here.symm.trans (LocalDir.unlinkAll_of_mem taken)
    | layered => cases rebuilt

end Fold

/-! ## Merges -/

/-- Taking a merge removes at most the file that it has written. -/
theorem Worker.adoptFiles_cases (w : Worker) (dir : LocalDir) :
    w.adoptFiles dir = dir ∨
      ∃ pending ∈ w.pendingMerge, w.adoptFiles dir = dir.unlink pending.path := by
  unfold Worker.adoptFiles
  cases ready : w.pendingMerge with
  | none => exact Or.inl rfl
  | some pending =>
    dsimp only
    split
    · exact Or.inr ⟨pending, rfl, rfl⟩
    · split
      · exact Or.inr ⟨pending, rfl, rfl⟩
      · exact Or.inl rfl
    · exact Or.inl rfl

/-- After a tick has looked for a finished merge, the one in flight is not finished. -/
theorem Worker.adoptMerge_unfinished (config : FlusherConfig) (w : Worker) (seen : Observed)
    (again : Bool) : ∀ pending ∈ (w.adoptMerge config seen again).pendingMerge,
      pending.finished = none := by
  have proceeds : ∀ {w w' : Worker} {seen : Observed}, w.Proceeds seen w' →
      (∀ pending ∈ w.pendingMerge, pending.finished = none) →
      ∀ pending ∈ w'.pendingMerge, pending.finished = none := by
    intro w w' seen proceeds unfinished
    have left : ∀ {pending}, w.MergeLeft seen.sequence pending →
        ∀ merge ∈ pending, merge.finished = none := by
      intro pending left
      cases left with
      | none => exact fun merge held => by cases held
      | kept => exact unfinished
      | planned plan =>
        rintro _ ⟨rfl⟩
        exact plan.finished
    cases proceeds with
    | refused _ _ _ rest => exact left rest
    | nothing _ rest => exact left rest
    | batch _ rest => exact left rest
    | await rest => exact left rest
    | upload => exact left .none
  have cleared : ∀ seen again, ∀ pending ∈
      ({ w with pendingMerge := none }.afterAdopt config seen again).pendingMerge,
        pending.finished = none :=
    fun seen again => proceeds (afterAdopt_proceeds config _ seen again) fun _ held => by cases held
  unfold Worker.adoptMerge
  cases ready : w.pendingMerge with
  | none =>
    refine proceeds (afterAdopt_proceeds config w seen again) ?_
    rw [ready]
    exact fun pending held => by cases held
  | some pending =>
    dsimp only
    split
    · next unfinished =>
        refine proceeds (afterAdopt_proceeds config w seen again) ?_
        rw [ready]
        rintro _ ⟨rfl⟩
        exact unfinished
    · split
      · split
        · exact cleared seen again
        · split
          · exact fun pending held => by cases held
          · exact cleared seen again
      · exact cleared seen again

/-- A merge that was taken to be published still has its file. -/
theorem Worker.Proceeds.publication_held (proceeds : w.Proceeds seen w')
    (merged : ∀ pending ∈ w.pendingMerge, ∀ file,
      pending.finished = some (.ok file) → dir pending.path = some file) :
    ∀ publication ∈ w'.tick.publication?,
      w.adoptFiles dir publication.pending.path = some publication.file := by
  cases proceeds with
  | @upload pending file current range again ready finished layers located committed =>
    rintro _ ⟨rfl⟩
    have kept : w.adoptFiles dir = dir := by
      unfold Worker.adoptFiles
      rw [ready]
      dsimp only
      rw [finished, layers]
      dsimp only
      rw [located]
      rfl
    rw [kept]
    exact merged pending ready file finished
  | _ => exact fun publication held => by cases held

/-- The spliced stack is on disk after the files that were merged are removed. -/
theorem LocalLayers.OnDisk.spliced {spliced : LayeredBase} {runs : List RunMeta} {merged : RunMeta}
    {layers : Option LocalLayers} {pending : Option PendingMerge}
    (named : publication.current.Named observed)
    (located : publication.Located observed layers pending) (held : publication.current.OnDisk dir)
    (written : dir publication.pending.path = some publication.file)
    (made : spliceRunSet publication.current.runs publication.range merged sequence = some runs)
    (resolved : publication.current.base.spliced publication.range.start publication.range.stop
      publication.file = .ok spliced) :
    (Worker.splicedLayers spliced runs publication).OnDisk
      (dir.unlinkAll (publication.range.window publication.current.paths)) := by
  have paths : (Worker.splicedLayers spliced runs publication).paths =
      publication.current.paths.take publication.range.start ++
        publication.pending.path :: publication.current.paths.drop publication.range.stop := by
    rw [LocalLayers.paths, Worker.paths_splicedLayers (Publication.length_localPaths made),
      Publication.localPaths, List.map_take, List.map_drop]
    rfl
  have before : (Worker.splicedLayers spliced runs publication).OnDisk dir := by
    rw [LocalLayers.onDisk_iff] at held ⊢
    rw [paths]
    change List.Forall₂ _ _ spliced.layers
    rw [spliced_layers resolved]
    apply List.rel_append (List.forall₂_take _ held)
    exact .cons written (List.forall₂_drop _ held)
  apply before.congr
  intro path member
  apply LocalDir.unlinkAll_of_not_mem
  intro inWindow
  have within := located.within
  unfold RunRange.Within at within
  have proper : publication.range.start ≤ publication.range.stop := by omega
  have distinct : publication.current.paths.Nodup := named.nodup
  rw [RunRange.take_window_drop proper publication.current.paths, List.nodup_append',
    List.nodup_append', List.disjoint_append_left] at distinct
  obtain ⟨⟨-, -, below⟩, -, -, above⟩ := distinct
  rw [paths] at member
  rcases List.mem_append.mp member with inBelow | rest
  · exact below inBelow inWindow
  · rcases List.mem_cons.mp rest with rfl | inAbove
    · exact located.apart.new _ located.current (RunRange.mem_of_mem_window inWindow)
    · exact above inWindow inAbove

/-! ## Steps -/

section Steps

variable {log : Log} {input : TickInput} {store store' : ObjectStore}

/-- What a step that folds does to the worker: it works at the sequence after the one it
has observed, and changes nothing but forest, stack and tick. -/
theorem Worker.folds_spec (named : store.snapshots.Named) (names : w.NamesOk config)
    (folding : w.folds config input store = some (sequence, folded))
    (stepped : w.tickStep config input store = some (store', w')) :
    ∃ observed force, w.cachedSeq ≤ observed ∧ sequence = observed + 1 ∧
      FoldEffect config w.forest w.layers sequence force input.diskOk folded ∧
      w'.layers = folded.layers ∧ w'.pendingMerge = w.pendingMerge ∧
      w'.tick.publication? = none := by
  have tick := names.tick
  unfold Worker.folds at folding
  unfold Worker.tickStep at stepped
  split at folding
  · next stands reply =>
      rw [stands] at stepped
      dsimp only at stepped
      unfold Worker.readStep at stepped
      rw [reply] at stepped
      dsimp only at stepped
      cases found : SnapshotCatalog.latest store.snapshots w.cachedSeq with
      | mk cachedSeq result =>
        rw [found] at folding stepped
        cases result with
        | error text => cases folding
        | ok latest =>
          dsimp only at folding stepped
          unfold Worker.observe at stepped
          dsimp only at stepped
          split at folding
          · cases folding
          · next follower =>
              rw [if_neg follower] at stepped
              cases folding
              cases stepped
              exact ⟨cachedSeq, false, SnapshotCatalog.le_latest found,
                SnapshotCatalog.latest_next named found, fold_effect .., rfl, rfl, rfl⟩
  · next seen batch stands reply =>
      rw [stands] at stepped tick
      cases folding
      dsimp only at stepped
      unfold Worker.putDataStep at stepped
      rw [reply] at stepped
      dsimp only at stepped
      refine ⟨w.cachedSeq, true, le_rfl, tick, fold_effect .., ?_⟩
      unfold Worker.foldForCommit at stepped
      dsimp only at stepped
      cases written : (fold config w.forest w.layers seen.sequence true input.diskOk).file with
      | error error =>
        rw [written] at stepped
        cases stepped
        exact ⟨rfl, rfl, rfl⟩
      | ok file =>
        rw [written] at stepped
        cases file with
        | none =>
          cases stepped
          exact ⟨rfl, rfl, rfl⟩
        | some file =>
          cases stepped
          exact ⟨rfl, rfl, rfl⟩
  · cases folding

/-- A step that folds under a name of its own keeps everything on disk. -/
theorem LocalState.FilesOk.folds (named : store.snapshots.Named) (names : w.NamesOk config)
    (ok : FilesOk ⟨w, dir⟩) (folding : w.folds config input store = some (sequence, folded))
    (apart : folded.rebuilds = true →
      ∀ current ∈ w.layers, .folded sequence true ∉ current.paths)
    (stepped : w.tickStep config input store = some (store', w')) :
    FilesOk ⟨w', folded.files w.layers sequence dir⟩ := by
  obtain ⟨observed, force, more, rfl, effect, layers, pending, publication⟩ :=
    Worker.folds_spec named names folding stepped
  refine ⟨?_, ?_, ?_⟩
  · intro current held
    change current ∈ w'.layers at held
    rw [layers] at held
    exact effect.files_onDisk (fun current held => (names.layers.named current held).mono more)
      ok.stack apart current held
  · intro merge held file finished
    change merge ∈ w'.pendingMerge at held
    rw [pending] at held
    have alone := names.layers.merge merge held
    obtain ⟨_, _, path, -⟩ := alone.named
    refine (effect.files_other ?_ alone.new).trans (ok.merge merge held file finished)
    intro compact same
    cases path.symm.trans same
  · intro published held
    cases publication.symm.trans held

/-- Without a merge in flight, deciding about merges leaves the files as they are. -/
theorem LocalState.FilesOk.proceeds (proceeds : w.Proceeds seen w') (taken : w.pendingMerge = none)
    (stack : OnDisk ⟨w, dir⟩) : FilesOk ⟨w', dir⟩ where
  stack current held := stack current (proceeds.layers_eq ▸ held)
  merge := by
    have left : ∀ {pending}, w.MergeLeft seen.sequence pending →
        ∀ merge ∈ pending, ∀ file, merge.finished = some (.ok file) →
          dir merge.path = some file := by
      intro pending left
      cases left with
      | none => exact fun merge held => by cases held
      | kept =>
        rw [taken]
        exact fun merge held => by cases held
      | planned plan =>
        rintro _ ⟨rfl⟩ file finished
        cases plan.finished.symm.trans finished
    cases proceeds with
    | refused _ _ _ rest => exact left rest
    | nothing _ rest => exact left rest
    | batch _ rest => exact left rest
    | await rest => exact left rest
    | upload => exact left .none
  publication := by
    cases proceeds with
    | upload again ready => cases taken.symm.trans ready
    | _ => exact fun publication held => by cases held

/-- A tick that looks for a finished merge keeps everything on disk. -/
theorem LocalState.FilesOk.adopts (names : Blaze.NamesOk w.cachedSeq w.layers w.pendingMerge)
    (stack : OnDisk ⟨w, dir⟩) (merged : ∀ pending ∈ w.pendingMerge, ∀ file,
      pending.finished = some (.ok file) → dir pending.path = some file)
    (seen : Observed) (again : Bool) :
    FilesOk ⟨w.adoptMerge config seen again, w.adoptFiles dir⟩ := by
  have proceeds := Worker.adoptMerge_proceeds config w seen again
  refine ⟨?_, ?_, proceeds.publication_held merged⟩
  · intro current held
    have held : current ∈ w.layers := proceeds.layers_eq ▸ held
    rcases w.adoptFiles_cases dir with same | ⟨pending, ready, same⟩
    · change current.OnDisk (w.adoptFiles dir)
      rw [same]
      exact stack current held
    · change current.OnDisk (w.adoptFiles dir)
      rw [same]
      exact (stack current held).unlink ((names.merge pending ready).new current held)
  · intro pending held file finished
    cases (Worker.adoptMerge_unfinished config w seen again pending held).symm.trans finished

/-- A step that touches neither stack, merge nor files keeps everything on disk. -/
theorem LocalState.FilesOk.idle (ok : FilesOk ⟨w, dir⟩) (layers : w'.layers = w.layers)
    (pending : w'.pendingMerge = w.pendingMerge) (publication : w'.tick.publication? = none) :
    FilesOk ⟨w', dir⟩ where
  stack current held := ok.stack current (layers ▸ held)
  merge merge held := ok.merge merge (pending ▸ held)
  publication published held := by cases publication.symm.trans held

/-- The reply to the upload of a merge. -/
theorem LocalState.FilesOk.putMerge (names : w.NamesOk config) (ok : FilesOk ⟨w, dir⟩)
    (stands : w.tick = .putMerge seen again publication)
    (stepped : w.putMergeStep config input store seen again publication = (store', w')) :
    FilesOk ⟨w', if input.reply = .done && (spliceRunSet publication.current.runs
      publication.range (publication.mergedMeta (store.freshPath seen.sequence))
      seen.sequence).isNone then dir.unlink publication.pending.path else dir⟩ := by
  have located := names.tick
  rw [stands] at located
  obtain ⟨-, located⟩ := located
  unfold Worker.putMergeStep at stepped
  cases reply : input.reply with
  | done =>
    rw [reply] at stepped
    cases stepped
    unfold Worker.publishMerge
    cases made : spliceRunSet publication.current.runs publication.range
        (publication.mergedMeta (store.freshPath seen.sequence)) seen.sequence with
    | none =>
      apply FilesOk.proceeds (Worker.afterAdopt_proceeds config w seen again) located.taken
      intro current held
      exact (ok.stack current held).unlink (located.apart.new current held)
    | some runs =>
      refine ⟨ok.stack, ok.merge, ?_⟩
      rintro _ ⟨rfl⟩
      apply ok.publication
      rw [stands]
      rfl
  | failed =>
    rw [reply] at stepped
    cases stepped
    exact ok.idle rfl rfl rfl
  | lost =>
    rw [reply] at stepped
    cases stepped
    exact ok.idle rfl rfl rfl

/-- The reply to the commit of a merge. -/
theorem LocalState.FilesOk.commitMerge (names : w.NamesOk config) (ok : FilesOk ⟨w, dir⟩)
    (stands : w.tick = .commitMerge seen again publication snapshot)
    (stepped : w.commitMergeStep config input store seen again publication snapshot =
      (store', w')) :
    FilesOk ⟨w', Worker.commitMergeFiles input store publication snapshot dir⟩ := by
  have tick := names.tick
  rw [stands] at tick
  obtain ⟨-, -, located, made⟩ := tick
  have written : dir publication.pending.path = some publication.file := by
    apply ok.publication
    rw [stands]
    rfl
  unfold Worker.commitMergeStep at stepped
  unfold Worker.commitMergeFiles
  cases reply : input.reply with
  | done =>
    rw [reply] at stepped
    dsimp only at stepped ⊢
    cases outcome : (SnapshotCatalog.commit store.snapshots snapshot).2 with
    | conflict =>
      rw [outcome] at stepped
      cases stepped
      apply FilesOk.proceeds (Worker.afterAdopt_proceeds config w seen again) located.taken
      intro current held
      exact (ok.stack current held).unlink (located.apart.new current held)
    | committed =>
      rw [outcome] at stepped
      cases stepped
      unfold Worker.spliceMerge
      cases input.diskOk with
      | false => exact ok.idle rfl rfl rfl
      | true =>
        dsimp only
        cases resolved : publication.current.base.spliced publication.range.start
            publication.range.stop publication.file with
        | error text => exact ok.idle rfl rfl rfl
        | ok spliced =>
          have proceeds := Worker.afterAdopt_proceeds config
            { w with
              cachedSeq := max w.cachedSeq snapshot.sequence
              forest := w.forest.swapBase spliced
              layers := some (Worker.splicedLayers spliced snapshot.runs publication) }
            seen.next again
          apply FilesOk.proceeds proceeds located.taken
          rintro _ ⟨rfl⟩
          exact LocalLayers.OnDisk.spliced (names.layers.named _ located.current) located
            (ok.stack _ located.current) written made resolved
  | failed =>
    rw [reply] at stepped
    cases stepped
    exact ok.idle rfl rfl rfl
  | lost =>
    rw [reply] at stepped
    cases stepped
    exact ok.idle rfl rfl rfl

/-- The reply to the upload of a run. -/
theorem LocalState.FilesOk.putPuffin (ok : FilesOk ⟨w, dir⟩) {dataPath : ObjectPath}
    {file : PuffinBase} {layer : Layer}
    (stepped : w.putPuffinStep config input store seen batch dataPath file layer = (store', w')) :
    FilesOk ⟨w', dir⟩ := by
  unfold Worker.putPuffinStep at stepped
  split at stepped
  · dsimp only at stepped
    split at stepped <;> cases stepped <;> exact ok.idle rfl rfl rfl
  · cases stepped
    exact ok.idle rfl rfl rfl
  · cases stepped
    exact ok.idle rfl rfl rfl

/-- The reply to the commit of a batch, after which the runs of the stack are marked. -/
theorem LocalState.FilesOk.commitData (ok : FilesOk ⟨w, dir⟩)
    (stepped : w.commitDataStep input store batch snapshot = (store', w')) : FilesOk ⟨w', dir⟩ := by
  unfold Worker.commitDataStep at stepped
  split at stepped
  · split at stepped
    · cases stepped
      exact ok.idle rfl rfl rfl
    · cases stepped
      refine ⟨?_, ok.merge, fun publication held => by cases held⟩
      intro current member
      obtain ⟨before, held, rfl⟩ := Option.map_eq_some_iff.mp member
      exact (ok.stack before held).markCommitted _
  · cases stepped
    exact ok.idle rfl rfl rfl
  · cases stepped
    exact ok.idle rfl rfl rfl

/-- A step that does not fold keeps everything on disk. -/
theorem LocalState.FilesOk.unfolded (names : w.NamesOk config) (ok : FilesOk ⟨w, dir⟩)
    (unfolded : w.folds config input store = none)
    (stepped : w.tickStep config input store = some (store', w')) :
    FilesOk ⟨w', w.tickFiles config input store dir⟩ := by
  unfold Worker.tickFiles
  rw [unfolded]
  dsimp only
  unfold Worker.folds at unfolded
  unfold Worker.tickStep at stepped
  cases stands : w.tick with
  | idle result =>
    rw [stands] at stepped
    cases stepped
  | readLatest =>
    rw [stands] at stepped unfolded
    dsimp only at stepped ⊢
    unfold Worker.readStep at stepped
    cases reply : input.reply with
    | done =>
      rw [reply] at stepped unfolded
      dsimp only at stepped unfolded ⊢
      cases found : SnapshotCatalog.latest store.snapshots w.cachedSeq with
      | mk cachedSeq result =>
        rw [found] at stepped unfolded
        cases result with
        | error text =>
          cases stepped
          exact ok.idle rfl rfl rfl
        | ok latest =>
          dsimp only at stepped unfolded ⊢
          unfold Worker.observe at stepped
          dsimp only at stepped
          split at unfolded
          · next leader =>
              rw [if_pos leader] at stepped
              cases stepped
              exact FilesOk.adopts (w := ({ w with cachedSeq := _ }.dropCovered _))
                (names.layers.mono (SnapshotCatalog.le_latest found)) ok.stack ok.merge _ _
          · cases unfolded
    | failed =>
      rw [reply] at stepped
      cases stepped
      exact ok.idle rfl rfl rfl
    | lost =>
      rw [reply] at stepped
      cases stepped
      exact ok.idle rfl rfl rfl
  | putMerge seen again publication =>
    rw [stands] at stepped
    exact ok.putMerge names stands (Option.some.inj stepped)
  | commitMerge seen again publication snapshot =>
    rw [stands] at stepped
    exact ok.commitMerge names stands (Option.some.inj stepped)
  | awaitMerge seen =>
    rw [stands] at stepped
    dsimp only at stepped ⊢
    split at stepped
    · cases stepped
      exact FilesOk.adopts names.layers ok.stack ok.merge seen true
    · cases stepped
  | putData seen batch =>
    rw [stands] at stepped unfolded
    dsimp only at stepped
    unfold Worker.putDataStep at stepped
    cases reply : input.reply with
    | done =>
      rw [reply] at unfolded
      cases unfolded
    | failed =>
      rw [reply] at stepped
      cases stepped
      exact ok.idle rfl rfl rfl
    | lost =>
      rw [reply] at stepped
      cases stepped
      exact ok.idle rfl rfl rfl
  | putPuffin seen batch dataPath file layer =>
    rw [stands] at stepped
    exact ok.putPuffin (Option.some.inj stepped)
  | commitData seen batch snapshot =>
    rw [stands] at stepped
    exact ok.commitData (Option.some.inj stepped)

theorem LocalState.FilesOk.tickStep (named : store.snapshots.Named) (names : w.NamesOk config)
    (ok : FilesOk ⟨w, dir⟩) (apart : FoldsApart config ⟨w, dir⟩ (.tick input store named))
    (stepped : w.tickStep config input store = some (store', w')) :
    FilesOk ⟨w', w.tickFiles config input store dir⟩ := by
  cases folding : w.folds config input store with
  | none => exact ok.unfolded names folding stepped
  | some entry =>
    obtain ⟨sequence, folded⟩ := entry
    rw [Worker.tickFiles_of_folds folding]
    exact ok.folds named names folding (apart (sequence, folded) folding) stepped

/-- The merge thread writes to a name that is not in the stack. -/
theorem LocalState.FilesOk.finishMerge (names : w.NamesOk config) (ok : FilesOk ⟨w, dir⟩)
    {diskOk : Bool} (finished : w.finishMerge diskOk = some w') :
    FilesOk ⟨w', w.mergeFiles diskOk dir⟩ := by
  obtain ⟨pending, held, unfinished, rfl⟩ := Worker.finishMerge_spec finished
  have alone := names.layers.merge pending held
  have unpublished : w.tick.publication? = none := by
    have tick := names.tick
    generalize w.tick = state at tick
    cases state with
    | putMerge => cases held.symm.trans tick.2.taken
    | commitMerge => cases held.symm.trans tick.2.2.1.taken
    | _ => rfl
  unfold Worker.mergeFiles
  rw [held]
  cases diskOk with
  | false =>
    refine ⟨ok.stack, ?_, fun publication member => ?_⟩
    · rintro _ ⟨rfl⟩ file result
      cases result
    · cases unpublished.symm.trans member
  | true =>
    refine ⟨?_, ?_, fun publication member => ?_⟩
    · intro current member
      exact (ok.stack current member).write _ (alone.new current member)
    · rintro _ ⟨rfl⟩ file result
      cases result
      exact LocalDir.write_self ..
    · cases unpublished.symm.trans member

variable {s s' : LocalState} {act : LocalAct}

/-- A step of the pair is a step of the worker. -/
theorem LocalState.step_acts (stepped : s.step log config act = some s') :
    Worker.Acts log config s.worker s'.worker := by
  cases act with
  | apply p o =>
    obtain ⟨w, applied, rfl⟩ := Option.map_eq_some_iff.mp stepped
    exact .apply applied
  | append =>
    obtain ⟨w, appended, rfl⟩ := Option.map_eq_some_iff.mp stepped
    exact .append appended
  | finishMerge diskOk =>
    obtain ⟨w, finished, rfl⟩ := Option.map_eq_some_iff.mp stepped
    exact .finishMerge finished
  | startTick =>
    obtain ⟨w, started, rfl⟩ := Option.map_eq_some_iff.mp stepped
    exact .startTick started
  | tick input store named =>
    obtain ⟨⟨store', w⟩, ticked, rfl⟩ := Option.map_eq_some_iff.mp stepped
    exact .tick named ticked

/-- A step that rebuilds the stack under a name of its own, or not at all, keeps
everything on disk. -/
theorem LocalState.FilesOk.step (names : s.worker.NamesOk config) (ok : s.FilesOk)
    (apart : s.FoldsApart config act) (stepped : s.step log config act = some s') :
    s'.FilesOk := by
  cases act with
  | apply p o =>
    obtain ⟨w, applied, rfl⟩ := Option.map_eq_some_iff.mp stepped
    obtain ⟨event, -, -, -, rfl⟩ := Worker.applyRecord_spec applied
    exact ⟨ok.stack, ok.merge, ok.publication⟩
  | append =>
    obtain ⟨w, appended, rfl⟩ := Option.map_eq_some_iff.mp stepped
    obtain ⟨record, -, rfl⟩ := Worker.appendRecord_spec appended
    exact ⟨ok.stack, ok.merge, ok.publication⟩
  | finishMerge diskOk =>
    obtain ⟨w, finished, rfl⟩ := Option.map_eq_some_iff.mp stepped
    exact FilesOk.finishMerge names ok finished
  | startTick =>
    obtain ⟨w, started, rfl⟩ := Option.map_eq_some_iff.mp stepped
    obtain ⟨-, rfl⟩ := Worker.startTick_spec started
    exact ok.idle rfl rfl rfl
  | tick input store named =>
    obtain ⟨⟨store', w⟩, ticked, rfl⟩ := Option.map_eq_some_iff.mp stepped
    exact FilesOk.tickStep named names ok apart ticked

/-- A step that rebuilds the stack under the name of one of its runs loses the file. -/
theorem LocalState.FoldsApart.of_onDisk (names : s.worker.NamesOk config)
    (stepped : s.step log config act = some s') (held : s'.OnDisk) : s.FoldsApart config act := by
  cases act with
  | tick input store named =>
    obtain ⟨⟨store', w⟩, ticked, rfl⟩ := Option.map_eq_some_iff.mp stepped
    rintro ⟨sequence, folded⟩ folding rebuilt current before taken
    obtain ⟨observed, force, -, -, effect, layers, -, -⟩ :=
      Worker.folds_spec named names folding ticked
    obtain ⟨next, after, lost⟩ := effect.files_lost rebuilt before taken s.dir
    apply lost
    rw [← Worker.tickFiles_of_folds folding]
    exact held next (layers.trans after)
  | _ => trivial

end Steps

/-- Along every history, whatever the catalog holds and however its requests end: the
stack is on disk after every step exactly if no step rebuilds it under the name of one
of the runs it rebuilds. -/
theorem local_runs_on_disk_iff {log : Log} {config : FlusherConfig} {start s : LocalState}
    {acts : List LocalAct} (starts : start.worker.Starts config) (cached : start.OnDisk)
    (performed : Execution.run (LocalState.step log config) acts start = some s) :
    (∀ past later middle, acts = past ++ later →
        Execution.run (LocalState.step log config) past start = some middle → middle.OnDisk) ↔
      Allowed (LocalState.step log config) (LocalState.FoldsApart config) acts start := by
  have names : ∀ {past middle},
      Execution.run (LocalState.step log config) past start = some middle →
        middle.worker.NamesOk config := by
    intro past middle reached
    apply run_invariant_of_step (fun s : LocalState => s.worker.NamesOk config) ?_
      starts.namesOk reached
    intro before act after names stepped
    exact names.acts (LocalState.step_acts stepped)
  constructor
  · intro held
    apply allowed_of_reached
    rintro past act later middle rfl reached
    rw [run_append, reached, Option.bind_some, run_cons] at performed
    obtain ⟨next, stepped, -⟩ := Option.bind_eq_some_iff.mp performed
    apply LocalState.FoldsApart.of_onDisk (names reached) stepped
    apply held (past ++ [act]) later next (List.append_cons ..)
    exact run_concat_iff.mpr ⟨middle, reached, stepped⟩
  · rintro every past later middle rfl reached
    obtain ⟨result, idle⟩ := starts.idle
    have initially : start.FilesOk := by
      refine ⟨cached, ?_, ?_⟩
      · rw [starts.merge]
        exact fun pending held => by cases held
      · rw [idle]
        exact fun publication held => by cases held
    have kept : middle.worker.NamesOk config ∧ middle.FilesOk := by
      apply run_invariant (fun s : LocalState => s.worker.NamesOk config ∧ s.FilesOk) ?_
        ⟨starts.namesOk, initially⟩ reached ((allowed_append reached).mp every).1
      rintro before act after ⟨names, ok⟩ apart stepped
      exact ⟨names.acts (LocalState.step_acts stepped), ok.step names apart stepped⟩
    exact kept.2.stack

/-- Whether the tick is over. -/
def TickState.isIdle : TickState → Bool
  | .idle _ => true
  | _ => false

theorem TickState.exists_idle {tick : TickState} (ended : tick.isIdle = true) :
    ∃ result, tick = .idle result := by
  cases tick with
  | idle result => exact ⟨result, rfl⟩
  | _ => cases ended

/-- A worker that starts with an empty directory. -/
def LocalState.fresh : LocalState where
  worker :=
    { forest := ScopedForest.new
      buffer := EdgeBuffer.new
      position := StreamPosition.new
      applying := none
      layers := none
      pendingMerge := none
      cachedSeq := 0
      tick := .idle (.ok ()) }
  dir _ := none

theorem LocalState.fresh_starts (config : FlusherConfig) :
    LocalState.fresh.worker.Starts config where
  mode _ := rfl
  opened _ held := by cases held
  merge := rfl
  idle := ⟨_, rfl⟩

/-- A tick of a follower. -/
def Script.follow (store : ObjectStore) (named : store.snapshots.Named) : List LocalAct :=
  [.startTick, .tick { leading with leader := false } store named]

/-- A tick on a table without snapshots. -/
def Script.followEmpty : List LocalAct :=
  follow ObjectStore.empty fun _ _ stored => by simp [ObjectStore.empty] at stored

/-- A record, the fold of it, and a second record. -/
def Script.foldedOnce : List LocalAct :=
  [.apply 0 1, .append] ++ followEmpty ++ [.apply 0 2, .append]

/-- A second fold at the same sequence. -/
def Script.rebuiltTwice : List LocalAct :=
  foldedOnce ++ followEmpty

/-- A second fold after three snapshots of others. -/
def Script.superseded : List LocalAct :=
  foldedOnce ++ follow chained.store named_chained

/-- A follower that folds twice while no snapshot is committed: the second fold rebuilds
the stack under the name of the first, and then removes it. -/
theorem rebuilt_twice_loses_file :
    ∃ s, Execution.run (LocalState.step (line 2) (worker true))
        rebuiltTwice LocalState.fresh = some s ∧
      (∃ result, s.worker.tick = .idle result) ∧
      ∃ current ∈ s.worker.layers, ∃ run ∈ current.runs, s.dir run.path = none := by
  refine exists_of_any (fun s => s.worker.tick.isIdle && s.worker.layers.any
    fun current => current.runs.any fun run => (s.dir run.path).isNone) (by decide +kernel) ?_
  intro s _ rest
  rw [Bool.and_eq_true] at rest
  obtain ⟨current, held, missing⟩ := (Option.any_eq_true _ _).mp rest.2
  obtain ⟨run, member, missing⟩ := List.any_eq_true.mp missing
  exact ⟨TickState.exists_idle rest.1, current, held, run, member,
    Option.isNone_iff_eq_none.mp missing⟩

/-- The file of the second fold has a name of its own, and is there when the first one is
removed. -/
theorem local_runs_on_disk_iff_superseded :
    ∃ s, Execution.run (LocalState.step (line 2) (worker true))
        superseded LocalState.fresh = some s ∧
      (s.worker.layers.map LocalLayers.paths = some [.folded 4 true] ∧
        s.dir (.folded 1 true) = none) ∧ s.OnDisk := by
  have apart : Allowed (LocalState.step (line 2) (worker true))
      (LocalState.FoldsApart (worker true)) superseded LocalState.fresh := by
    decide +kernel
  have cached : LocalState.fresh.OnDisk := fun current held => by cases held
  refine exists_of_any (fun s => s.worker.layers.map LocalLayers.paths ==
    some [.folded 4 true] && (s.dir (.folded 1 true)).isNone) (by decide +kernel) ?_
  intro s performed replaced
  simp only [Bool.and_eq_true, beq_iff_eq, Option.isNone_iff_eq_none] at replaced
  refine ⟨replaced, ?_⟩
  exact (local_runs_on_disk_iff (LocalState.fresh_starts _) cached performed).mpr apart
    superseded [] s (List.append_nil _).symm performed

end Blaze
