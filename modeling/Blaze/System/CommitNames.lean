import Blaze.Storage.Retention
import Blaze.System.SoleWriter

/-!
# What a commit names

The run set a worker commits is built from the one it committed before.  When it
is the only writer, every object that a new snapshot names was uploaded for it, or
is named by the newest snapshot.
-/

namespace Blaze

variable {snapshot : SnapshotMeta}

/-- The objects that are uploaded for a snapshot. -/
def SnapshotMeta.published (snapshot : SnapshotMeta) : List ObjectKey :=
  ⟨.puffin, snapshot.puffinPath.uuid⟩ ::
    snapshot.dataFiles.map fun file => ⟨.data, file.path.uuid⟩

theorem SnapshotMeta.mem_objects_iff {key : ObjectKey} :
    key ∈ snapshot.objects ↔ key ∈ snapshot.published ∨
      ∃ run ∈ snapshot.runs, ⟨.puffin, run.path.uuid⟩ = key := by
  unfold objects published
  rw [List.mem_append, List.mem_map]

/-- The files a snapshot is assembled from are objects it names. -/
theorem SnapshotMeta.mem_objects_of_assembled {path : ObjectPath}
    (member : path ∈ snapshot.assembled.map RunMeta.path) :
    ⟨.puffin, path.uuid⟩ ∈ snapshot.objects := by
  rcases List.mem_map.mp member with ⟨run, listed, rfl⟩
  by_cases none : snapshot.runs = []
  · unfold assembled at listed
    rw [if_pos none, List.mem_singleton] at listed
    rw [listed]
    exact snapshot.puffin_mem_objects
  · rw [assembled_of_ne_nil none] at listed
    exact run_mem_objects listed

/-- Named by the newest snapshot. -/
def ObjectStore.NamedByNewest (store : ObjectStore) (key : ObjectKey) : Prop :=
  ∃ newest, store.snapshots[store.count]? = some newest ∧ key ∈ newest.objects

section Commit

variable {log : Log} {bound : Set EdgeEvent} {config : FlusherConfig} {store : ObjectStore}
  {w : Worker}

/-- A stack that is all in the catalog is the run set of the newest snapshot. -/
theorem Worker.Alone.described_newest (ok : store.InOrder) (assembles : store.Assembles)
    (runs : w.RunsOk config store) (alone : w.Alone store) {current : LocalLayers}
    (held : w.layers = some current) (committed : current.fullyCommitted = true) :
    ∃ newest, store.snapshots[store.count]? = some newest ∧
      Described current.runs newest.assembled := by
  have stack := runs.layers.stack
  rw [held] at stack
  rcases stack.exists_snapshot committed with ⟨k, snapshot, -, stored, described⟩
  rcases (assembles k snapshot stored).last_described described with ⟨last, isLast, ends⟩
  rw [alone.stack current held committed last isLast, ok.named k snapshot stored] at ends
  rw [← ends] at stored
  exact ⟨snapshot, stored, described⟩

/-- A merge names the merged file and runs of the newest snapshot. -/
theorem Worker.Alone.merge_names (ok : store.InOrder) (assembles : store.Assembles)
    (runs : w.RunsOk config store) (alone : w.Alone store) {seen : Observed} {again : Bool}
    {publication : Publication} (stands : w.tick = .commitMerge seen again publication snapshot)
    {run : RunMeta} (member : run ∈ snapshot.runs) :
    run.path = snapshot.puffinPath ∨ store.NamedByNewest ⟨.puffin, run.path.uuid⟩ := by
  have tick := runs.tick
  rw [stands] at tick
  rcases alone.described_newest ok assembles runs tick.1.current tick.1.committed with
    ⟨newest, stored, described⟩
  have made := tick.2
  rw [spliceRunSet_eq described] at made
  have path : run.path ∈ snapshot.runs.map RunMeta.path := List.mem_map.mpr ⟨run, member, rfl⟩
  rw [map_path_extendNewest made, List.map_append, List.map_cons, List.map_take, List.map_drop,
    List.mem_append, List.mem_cons] at path
  rcases path with below | merged | above
  · exact Or.inr
      ⟨newest, stored, SnapshotMeta.mem_objects_of_assembled (List.mem_of_mem_take below)⟩
  · exact Or.inl merged
  · exact Or.inr
      ⟨newest, stored, SnapshotMeta.mem_objects_of_assembled (List.mem_of_mem_drop above)⟩

/-- A batch names its own routing file and runs of the newest snapshot. -/
theorem Worker.Alone.batch_names (ok : store.InOrder) (order : w.InOrder store)
    (assembles : store.Assembles) (runs : w.RunsOk config store) (routed : w.Routed log bound store)
    (alone : w.Alone store) {seen : Observed} {batch : Batch}
    (stands : w.tick = .commitData seen batch snapshot) (free : store.Free snapshot.sequence)
    {run : RunMeta} (member : run ∈ snapshot.runs) :
    run.path = snapshot.puffinPath ∨ store.NamedByNewest ⟨.puffin, run.path.uuid⟩ := by
  have tick := runs.tick
  have tickOrder := order.tick
  have content := routed.tick
  have stack := runs.layers.stack
  rw [stands] at tick tickOrder content
  rcases content with ⟨file, -, publishes⟩
  have adjacent := publishes.adjacent (by rw [← tickOrder.2.2.1]; exact free)
  rcases tick with ⟨layer, ready, listedRuns, -, -⟩
  generalize w.layers = layers at ready listedRuns stack adjacent
  cases ready with
  | ram ram =>
    rw [listedRuns] at member
    cases member
  | @disk current older newest _ split uncommitted reaches named =>
    rcases stack.exists_newest split uncommitted with ⟨listed, atop⟩
    change snapshot.runs = (current.runMetas snapshot.puffinPath).getD [] at listedRuns
    rw [atop.runMetas, Option.getD_some] at listedRuns
    rw [listedRuns] at member
    rcases List.mem_append.mp member with below | own
    · right
      rcases atop.below with rfl | ⟨-, k, snapshot', seen', stored, rfl⟩
      · cases below
      · -- the runs below end at the newest snapshot
        rcases (assembles k snapshot' stored).last_described atop.described with
          ⟨last, isLast, ends⟩
        have reached := adjacent current rfl last (by rw [split, List.dropLast_concat, isLast]; rfl)
        rw [ends, ok.named k snapshot' stored, tickOrder.1.next, alone.cached] at reached
        cases Nat.succ.inj reached
        exact ⟨snapshot', stored,
          SnapshotMeta.mem_objects_of_assembled (List.mem_map.mpr ⟨run, below, rfl⟩)⟩
    · left
      rw [List.mem_singleton.mp own]
      rfl

/-- Every object that a snapshot of the only writer names was uploaded for it, or is
named by the newest one. -/
theorem Worker.Alone.commit_names (ok : store.InOrder) (order : w.InOrder store)
    (assembles : store.Assembles) (runs : w.RunsOk config store) (routed : w.Routed log bound store)
    (alone : w.Alone store) (stands : w.tick.committing? = some snapshot)
    (free : store.Free snapshot.sequence) {key : ObjectKey} (member : key ∈ snapshot.objects) :
    key ∈ snapshot.published ∨ store.NamedByNewest key := by
  rcases SnapshotMeta.mem_objects_iff.mp member with published | ⟨run, listed, rfl⟩
  · exact Or.inl published
  · have origin : run.path = snapshot.puffinPath ∨
        store.NamedByNewest ⟨.puffin, run.path.uuid⟩ := by
      cases tick : w.tick with
      | commitMerge seen again publication committing =>
        rw [tick] at stands
        cases stands
        exact alone.merge_names ok assembles runs tick listed
      | commitData seen batch committing =>
        rw [tick] at stands
        cases stands
        exact alone.batch_names ok order assembles runs routed tick free listed
      | _ =>
        rw [tick] at stands
        cases stands
    rcases origin with own | named
    · left
      rw [own]
      exact List.mem_cons_self
    · exact Or.inr named

end Commit

end Blaze
