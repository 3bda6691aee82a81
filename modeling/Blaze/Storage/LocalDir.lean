import Blaze.Storage.Stack
import Blaze.Storage.Tick

/-!
# The worker's directory

What a tick does to the files beside what it does to the worker.  A fold writes its
file under a name made of the sequence, and a rebuilt run then removes the files of
the runs it was rebuilt from; a merge writes its file when it has finished, and the
files it has read go once it is committed.
-/

namespace Blaze

variable {dir : LocalDir} {path other : LocalPath} {paths : List LocalPath}

/-- What the file of each name holds. -/
abbrev LocalDir := LocalPath → Option PuffinBase

namespace LocalDir

/-- Put a file in place under its name. -/
def write (dir : LocalDir) (path : LocalPath) (file : PuffinBase) : LocalDir :=
  Function.update dir path (some file)

def unlink (dir : LocalDir) (path : LocalPath) : LocalDir :=
  Function.update dir path none

/-- Unlink the files one after the other; a name that is not there is passed over. -/
def unlinkAll (dir : LocalDir) (paths : List LocalPath) : LocalDir :=
  paths.foldl unlink dir

@[simp]
theorem write_self (dir : LocalDir) (path : LocalPath) (file : PuffinBase) :
    dir.write path file path = some file :=
  Function.update_self ..

theorem write_of_ne {file : PuffinBase} (apart : other ≠ path) :
    dir.write path file other = dir other :=
  Function.update_of_ne apart ..

theorem unlink_of_ne (apart : other ≠ path) : dir.unlink path other = dir other :=
  Function.update_of_ne apart ..

theorem unlinkAll_of_not_mem (kept : path ∉ paths) : dir.unlinkAll paths path = dir path := by
  induction paths generalizing dir with
  | nil => rfl
  | cons first paths ih =>
    rw [List.mem_cons, not_or] at kept
    exact (ih kept.2).trans (unlink_of_ne kept.1)

theorem unlinkAll_of_mem (gone : path ∈ paths) : dir.unlinkAll paths path = none := by
  induction paths generalizing dir with
  | nil => cases gone
  | cons first paths ih =>
    change (dir.unlink first).unlinkAll paths path = none
    by_cases again : path ∈ paths
    · exact ih again
    · rw [unlinkAll_of_not_mem again]
      rcases List.mem_cons.mp gone with rfl | member
      · exact Function.update_self ..
      · exact absurd member again

end LocalDir

/-! ## What a step does to the directory -/

/-- The files after a fold. -/
def Folded.files (folded : Folded) (layers : Option LocalLayers) (sequence : Nat)
    (dir : LocalDir) : LocalDir :=
  match folded.file with
  | .ok (some (file, .base)) =>
      (dir.write (.folded sequence true) file).unlinkAll ((layers.map LocalLayers.paths).getD [])
  | .ok (some (file, .delta _)) => dir.write (.folded sequence false) file
  | _ => dir

/-- Whether the fold has rewritten the whole stack. -/
def Folded.rebuilds (folded : Folded) : Bool :=
  match folded.file with
  | .ok (some (_, .base)) => true
  | _ => false

namespace Worker

/-- The fold that a step of a tick performs, with its sequence. -/
def folds (config : FlusherConfig) (input : TickInput) (store : ObjectStore) (w : Worker) :
    Option (Nat × Folded) :=
  match w.tick, input.reply with
  | .readLatest, .done =>
      match (SnapshotCatalog.latest store.snapshots w.cachedSeq).2 with
      | .error _ => none
      | .ok latest =>
          if input.leader then
            none
          else
            let sequence := (Observed.new latest).sequence
            some (sequence, fold config w.forest w.layers sequence false input.diskOk)
  | .putData seen _, .done =>
      some (seen.sequence, fold config w.forest w.layers seen.sequence true input.diskOk)
  | _, _ => none

/-- The files after a finished merge was taken: one that failed, or whose runs are no
longer in the stack, is discarded. -/
def adoptFiles (w : Worker) (dir : LocalDir) : LocalDir :=
  match w.pendingMerge with
  | none => dir
  | some pending =>
      match pending.finished, w.layers with
      | some (.error _), _ => dir.unlink pending.path
      | some (.ok _), some current =>
          if (locateRunWindow current.runs pending.inputs).isNone then
            dir.unlink pending.path
          else
            dir
      | _, _ => dir

/-- The files after the reply to the commit of a merge. -/
def commitMergeFiles (input : TickInput) (store : ObjectStore) (publication : Publication)
    (snapshot : SnapshotMeta) (dir : LocalDir) : LocalDir :=
  match input.reply with
  | .done =>
      match (SnapshotCatalog.commit store.snapshots snapshot).2 with
      | .conflict => dir.unlink publication.pending.path
      | .committed =>
          if input.diskOk && (publication.current.base.spliced publication.range.start
              publication.range.stop publication.file).toBool then
            dir.unlinkAll (publication.range.window publication.current.paths)
          else
            dir
  | _ => dir

/-- The files after a step of a tick. -/
def tickFiles (config : FlusherConfig) (input : TickInput) (store : ObjectStore) (w : Worker)
    (dir : LocalDir) : LocalDir :=
  match w.folds config input store with
  | some (sequence, folded) => folded.files w.layers sequence dir
  | none =>
      match w.tick with
      | .readLatest =>
          match input.reply, (SnapshotCatalog.latest store.snapshots w.cachedSeq).2 with
          | .done, .ok _ => w.adoptFiles dir
          | _, _ => dir
      | .putMerge seen _ publication =>
          if input.reply = .done && (spliceRunSet publication.current.runs publication.range
              (publication.mergedMeta (store.freshPath seen.sequence)) seen.sequence).isNone then
            dir.unlink publication.pending.path
          else
            dir
      | .commitMerge _ _ publication snapshot =>
          commitMergeFiles input store publication snapshot dir
      | .awaitMerge _ => w.adoptFiles dir
      | _ => dir

theorem tickFiles_of_folds {config : FlusherConfig} {input : TickInput} {store : ObjectStore}
    {w : Worker} {sequence : Nat} {folded : Folded}
    (folding : w.folds config input store = some (sequence, folded)) (dir : LocalDir) :
    w.tickFiles config input store dir = folded.files w.layers sequence dir := by
  unfold tickFiles
  rw [folding]

/-- The files after the merge thread is done. -/
def mergeFiles (w : Worker) (diskOk : Bool) (dir : LocalDir) : LocalDir :=
  match w.pendingMerge with
  | none => dir
  | some pending =>
      if diskOk then dir.write pending.path (compactLayers pending.stack) else dir

end Worker

end Blaze
