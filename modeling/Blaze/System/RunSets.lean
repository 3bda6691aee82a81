import Blaze.Storage.Stack
import Blaze.System.CommitOrder

/-!
# Run sets that are accepted

A worker describes a commit by its own stack.  The spans fit together as long as
the stack it folds over ends where the catalog ends; nothing in the tick checks
this.  A snapshot that is not accepted stays in the catalog, and no worker can
start from it.
-/

namespace Blaze

open List Fallible SnapshotCatalog

variable {snapshot : SnapshotMeta} {current next : LocalLayers} {inputs older : List LocalRun}
  {pending : Option PendingMerge} {seen : Observed} {observed : Nat} {publication : Publication}
  {runs : List RunMeta} {newest : LocalRun} {store store' : ObjectStore}
  {layers : Option LocalLayers} {w w' : Worker} {config : FlusherConfig} {log : Log}
  {process : Process} {forest forest' : ScopedForest LayeredBase} {file : PuffinBase}
  {layer : Layer} {path : ObjectPath} {batch : Batch} {s : System}

/-! ## What a reader assembles -/

namespace SnapshotMeta

/-- The runs a reader assembles: the listed ones, or the one file of a snapshot
that lists none. -/
def assembled (snapshot : SnapshotMeta) : List RunMeta :=
  if snapshot.runs = [] then
    [{ path := snapshot.puffinPath
       level := 0
       minSequence := snapshot.sequence
       maxSequence := snapshot.sequence }]
  else
    snapshot.runs

/-- The spans are contiguous and end at the snapshot's own sequence; a snapshot
that lists no runs starts a chain of its own. -/
structure Assembles (snapshot : SnapshotMeta) : Prop where
  contiguous : Contiguous snapshot.assembled
  ends : EndsAt snapshot.assembled snapshot.sequence
  alone : snapshot.runs = [] →
    snapshot.formatVersion = 0 ∧ snapshot.baseSequence = snapshot.sequence

theorem assembled_of_ne_nil (listed : snapshot.runs ≠ []) : snapshot.assembled = snapshot.runs :=
  if_neg listed

theorem assembled_ne_nil (snapshot : SnapshotMeta) : snapshot.assembled ≠ [] := by
  unfold assembled
  split
  · simp
  · next listed => exact listed

theorem assembles_of_contiguous (listed : snapshot.runs ≠ [])
    (contiguous : Contiguous snapshot.runs) (ends : EndsAt snapshot.runs snapshot.sequence) :
    snapshot.Assembles :=
  ⟨by rwa [assembled_of_ne_nil listed], by rwa [assembled_of_ne_nil listed],
    fun none => absurd none listed⟩

/-- What assembles is accepted as it is listed. -/
theorem Assembles.runSet (assembles : snapshot.Assembles) (listed : snapshot.runs ≠ []) :
    snapshot.runSet = .ok (.runs snapshot.runs) := by
  have contiguous := assembles.contiguous
  have ends := assembles.ends
  rw [assembled_of_ne_nil listed] at contiguous ends
  exact runSet_of_contiguous listed contiguous ends

/-- Readers assemble exactly these runs. -/
theorem Assembles.committedRuns (assembles : snapshot.Assembles) (snapshots : Snapshots) :
    Blaze.committedRuns snapshots snapshot = .ok snapshot.assembled := by
  unfold Blaze.committedRuns
  by_cases none : snapshot.runs = []
  · rcases assembles.alone none with ⟨format, base⟩
    have chain : snapshot.runSet =
        .ok (.sequencesOnly snapshot.sequence snapshot.sequence) := by
      unfold SnapshotMeta.runSet chainStart
      rw [none, format, base]
      simp [formatRunSets]
    rw [chain]
    unfold assembled
    rw [if_pos none]
    simp only [bind, Except.bind, Nat.add_sub_cancel_left, range'_one]
    rw [mapM_cons, mapM_nil, if_pos rfl]
    rfl
  · rw [assembles.runSet none, assembled_of_ne_nil none]
    rfl

/-- The last assembled run ends at the snapshot's sequence. -/
theorem Assembles.exists_last (assembles : snapshot.Assembles) :
    ∃ last, snapshot.assembled.getLast? = some last ∧ last.maxSequence = snapshot.sequence := by
  have last := getLast?_eq_some_getLast snapshot.assembled_ne_nil
  exact ⟨_, last, assembles.ends _ last⟩

/-- A stack that a snapshot describes ends at the snapshot's sequence. -/
theorem Assembles.last_described (assembles : snapshot.Assembles) {runs : List LocalRun}
    (described : Described runs snapshot.assembled) :
    ∃ newest, runs.getLast? = some newest ∧ newest.maxSequence = snapshot.sequence := by
  have nonempty : runs ≠ [] := by
    rintro rfl
    exact snapshot.assembled_ne_nil (forall₂_nil_left_iff.mp described)
  have held := getLast?_eq_some_getLast nonempty
  rcases described.getLast? held with ⟨last, isLast, same⟩
  refine ⟨_, held, ?_⟩
  rw [← assembles.ends last isLast, (committedMeta?_eq_some_iff.mp same).2]
  rfl

/-- No span reaches above the snapshot's sequence. -/
theorem Assembles.min_le (assembles : snapshot.Assembles) {run : RunMeta}
    (isFirst : snapshot.assembled.head? = some run) : run.minSequence ≤ snapshot.sequence := by
  rcases assembles.exists_last with ⟨last, isLast, ends⟩
  rw [← ends]
  exact assembles.contiguous.min_le_last (mem_of_head? isFirst) isLast

end SnapshotMeta

/-- Every committed snapshot can be assembled. -/
def ObjectStore.Assembles (store : ObjectStore) : Prop :=
  ∀ (k : Nat) (snapshot : SnapshotMeta), store.snapshots[k]? = some snapshot →
    snapshot.Assembles

/-! ## The stack of a worker -/

/-- The sequence a local file was written for; cached files are older than the
worker. -/
def LocalPath.sequence : LocalPath → Nat
  | .folded sequence _ => sequence
  | .merged sequence _ => sequence
  | .cached _ => 0

/-- Files are named apart, and the name of a committed one is not used again. -/
structure LocalLayers.Named (observed : Nat) (layers : LocalLayers) : Prop where
  nodup : (layers.runs.map LocalRun.path).Nodup
  known : ∀ run ∈ layers.runs, run.remote.isSome → run.path.sequence ≤ observed

/-- The stack of a worker whose catalog has observed `observed`: none, the run set
of a committed snapshot, or a run of its own over such a run set or over
nothing. -/
inductive StackedOn (store : ObjectStore) (observed : Nat) : Option LocalLayers → Prop
  | none : StackedOn store observed none
  | committed {layers : LocalLayers} {k : Nat} {snapshot : SnapshotMeta} (seen : k ≤ observed)
      (stored : store.snapshots[k]? = some snapshot)
      (described : Described layers.runs snapshot.assembled) :
      StackedOn store observed (some layers)
  | rebuilt {layers : LocalLayers} {newest : LocalRun} (runs : layers.runs = [newest])
      (uncommitted : newest.remote = none)
      (forwards : newest.minSequence ≤ newest.maxSequence)
      (bound : newest.maxSequence ≤ observed + 1) : StackedOn store observed (some layers)
  | layered {layers : LocalLayers} {older : List LocalRun} {newest : LocalRun} {k : Nat}
      {snapshot : SnapshotMeta} (runs : layers.runs = older ++ [newest])
      (uncommitted : newest.remote = none) (seen : k ≤ observed)
      (stored : store.snapshots[k]? = some snapshot)
      (described : Described older snapshot.assembled)
      (single : newest.minSequence = newest.maxSequence) : StackedOn store observed (some layers)

/-- The merge was planned over committed runs, and the stack still holds each of
them if it holds its file. -/
structure PendingMerge.Over (observed : Nat) (layers : Option LocalLayers)
    (inputs : List LocalRun) (pending : PendingMerge) : Prop where
  paths : inputs.map LocalRun.path = pending.inputs
  min : inputs.head?.map LocalRun.minSequence = some pending.minSequence
  max : inputs.getLast?.map LocalRun.maxSequence = some pending.maxSequence
  known : ∀ input ∈ inputs, input.path.sequence ≤ observed
  same : ∀ current ∈ layers, ∀ run ∈ current.runs, ∀ input ∈ inputs,
    run.path = input.path → run = input
  named : ∃ sequence level, pending.path = .merged sequence level ∧ sequence ≤ observed + 1
  new : ∀ current ∈ layers, ∀ run ∈ current.runs, run.path ≠ pending.path

/-- A finished merge is about to replace the runs it was planned over, and no
other one is in flight. -/
structure Publication.Fits (observed : Nat) (layers : Option LocalLayers)
    (pending : Option PendingMerge) (publication : Publication) : Prop where
  taken : pending = none
  current : layers = some publication.current
  committed : publication.current.fullyCommitted = true
  within : publication.range.Within 1 publication.current.runs.length
  atop : publication.pending.Over observed layers
    (publication.range.window publication.current.runs)

/-- The routing file of a batch is ready: the whole map, or the newest run of the
stack. -/
inductive Ready (config : FlusherConfig) (sequence : Nat) : Option LocalLayers → Layer → Prop
  | ram (ram : config.diskMode = false) : Ready config sequence none .base
  | disk {layers : LocalLayers} {older : List LocalRun} {newest : LocalRun} {layer : Layer}
      (runs : layers.runs = older ++ [newest]) (uncommitted : newest.remote = none)
      (reaches : newest.maxSequence = sequence)
      (named : ∃ compact, newest.path = .folded sequence compact) :
      Ready config sequence (some layers) layer

/-- The run set of what a tick is about to commit comes from the stack. -/
def TickState.RunsOk (config : FlusherConfig) (observed : Nat) (layers : Option LocalLayers)
    (pending : Option PendingMerge) : TickState → Prop
  | .putMerge _ _ publication => publication.Fits observed layers pending
  | .commitMerge seen _ publication snapshot => publication.Fits observed layers pending ∧
      spliceRunSet publication.current.runs publication.range
        (publication.mergedMeta snapshot.puffinPath) seen.sequence = some snapshot.runs
  | .putPuffin seen _ _ _ layer => Ready config seen.sequence layers layer
  | .commitData seen _ snapshot => ∃ layer, Ready config seen.sequence layers layer ∧
      snapshot.runs = (layers.bind fun current => current.runMetas snapshot.puffinPath).getD [] ∧
      (snapshot.runs = [] → snapshot.formatVersion = 0) ∧
      (layer = .base → snapshot.baseSequence = seen.sequence)
  | _ => True

/-- The stack and the merge in flight fit together. -/
structure LayersOk (store : ObjectStore) (observed : Nat) (layers : Option LocalLayers)
    (pending : Option PendingMerge) : Prop where
  stack : StackedOn store observed layers
  named : ∀ current ∈ layers, current.Named observed
  atop : ∀ merge ∈ pending, ∃ inputs, merge.Over observed layers inputs

structure Worker.RunsOk (config : FlusherConfig) (store : ObjectStore) (w : Worker) : Prop where
  mode : config.diskMode = false → w.layers = none
  layers : LayersOk store w.cachedSeq w.layers w.pendingMerge
  tick : w.tick.RunsOk config w.cachedSeq w.layers w.pendingMerge

def Process.RunsOk (config : FlusherConfig) (store : ObjectStore) : Process → Prop
  | .offline => True
  | .booting boot => (config.diskMode = false → boot.layers = none) ∧
      LayersOk store boot.cachedSeq boot.layers none
  | .running w => w.RunsOk config store

/-! ## What the others do, and what the worker observes -/

section Monotone

variable {later : Nat}

theorem StackedOn.mono (grows : store.Grows store') (more : observed ≤ later)
    (stack : StackedOn store observed layers) : StackedOn store' later layers := by
  cases stack with
  | none => exact .none
  | committed seen stored described =>
    exact .committed (seen.trans more) (grows.snapshots _ _ stored) described
  | rebuilt runs uncommitted forwards bound =>
    exact .rebuilt runs uncommitted forwards (bound.trans (Nat.succ_le_succ more))
  | layered runs uncommitted seen stored described single =>
    exact .layered runs uncommitted (seen.trans more) (grows.snapshots _ _ stored) described single

theorem LocalLayers.Named.mono (more : observed ≤ later) (named : current.Named observed) :
    current.Named later :=
  ⟨named.nodup, fun run member committed => (named.known run member committed).trans more⟩

theorem PendingMerge.Over.mono {pending : PendingMerge} (more : observed ≤ later)
    (atop : pending.Over observed layers inputs) :
    pending.Over later layers inputs where
  paths := atop.paths
  min := atop.min
  max := atop.max
  known input member := (atop.known input member).trans more
  same := atop.same
  named := by
    rcases atop.named with ⟨sequence, level, path, bound⟩
    exact ⟨sequence, level, path, bound.trans (Nat.succ_le_succ more)⟩
  new := atop.new

theorem LayersOk.mono (grows : store.Grows store') (more : observed ≤ later)
    (ok : LayersOk store observed layers pending) :
    LayersOk store' later layers pending where
  stack := ok.stack.mono grows more
  named current held := (ok.named current held).mono more
  atop merge held := by
    rcases ok.atop merge held with ⟨inputs, atop⟩
    exact ⟨inputs, atop.mono more⟩

theorem Process.RunsOk.stable (grows : store.Grows store') (runs : process.RunsOk config store) :
    process.RunsOk config store' := by
  cases process with
  | offline => trivial
  | booting boot => exact ⟨runs.1, runs.2.mono grows le_rfl⟩
  | running w => exact ⟨runs.mode, runs.layers.mono grows le_rfl, runs.tick⟩

end Monotone

/-! ## Folds -/

/-- The runs of a stack that is not in the catalog begin no later than the next
sequence. -/
theorem StackedOn.first_le (ok : store.InOrder) (assembles : store.Assembles)
    (stack : StackedOn store observed (some current)) {run : LocalRun}
    (isFirst : current.runs.head? = some run) : run.minSequence ≤ observed + 1 := by
  -- the first run of a run set begins at or below the sequence of its snapshot
  have described : ∀ {runs : List LocalRun} {k : Nat} {snapshot : SnapshotMeta}, k ≤ observed →
      store.snapshots[k]? = some snapshot → Described runs snapshot.assembled →
      runs.head? = some run → run.minSequence ≤ observed + 1 := by
    intro runs k snapshot seen stored described isFirst
    rcases described.head? isFirst with ⟨first, listed, same⟩
    have bound := (assembles k snapshot stored).min_le listed
    rw [ok.named k snapshot stored, (committedMeta?_eq_some_iff.mp same).2] at bound
    change run.minSequence ≤ k at bound
    omega
  cases stack with
  | committed seen stored same => exact described seen stored same isFirst
  | rebuilt runs uncommitted forwards bound =>
    rw [runs] at isFirst
    cases isFirst
    exact forwards.trans bound
  | @layered _ older newest k snapshot runs uncommitted seen stored same single =>
    refine described seen stored same ?_
    have nonempty : older ≠ [] := by
      rintro rfl
      exact snapshot.assembled_ne_nil (forall₂_nil_left_iff.mp same)
    rw [runs, head?_append_of_ne_nil _ nonempty] at isFirst
    exact isFirst

/-- A stack that is all in the catalog is the run set of a snapshot. -/
theorem StackedOn.exists_snapshot (stack : StackedOn store observed (some current))
    (committed : current.fullyCommitted = true) :
    ∃ (k : Nat) (snapshot : SnapshotMeta), k ≤ observed ∧ store.snapshots[k]? = some snapshot ∧
      Described current.runs snapshot.assembled := by
  cases stack with
  | @committed _ k snapshot seen stored described => exact ⟨k, snapshot, seen, stored, described⟩
  | @rebuilt _ newest runs uncommitted =>
    have listed : current.runs = [] ++ [newest] := runs
    rw [LocalLayers.not_fullyCommitted listed uncommitted] at committed
    cases committed
  | layered runs uncommitted =>
    rw [LocalLayers.not_fullyCommitted runs uncommitted] at committed
    cases committed

/-- A stack whose new runs are folds of the next sequence does not disturb a
merge in flight. -/
theorem PendingMerge.Over.refold {pending : PendingMerge}
    (atop : pending.Over observed layers inputs)
    (origin : ∀ run ∈ next.runs, (∃ current ∈ layers, run ∈ current.runs) ∨
      ∃ compact, run.path = .folded (observed + 1) compact) :
    pending.Over observed (some next) inputs where
  paths := atop.paths
  min := atop.min
  max := atop.max
  known := atop.known
  same := by
    rintro current ⟨rfl⟩ run member input planned samePath
    rcases origin run member with ⟨previous, held, inPrevious⟩ | ⟨compact, path⟩
    · exact atop.same previous held run inPrevious input planned samePath
    · have bound := atop.known input planned
      rw [← samePath, path] at bound
      exact absurd bound (Nat.not_succ_le_self observed)
  named := atop.named
  new := by
    rintro current ⟨rfl⟩ run member samePath
    rcases origin run member with ⟨previous, held, inPrevious⟩ | ⟨compact, path⟩
    · exact atop.new previous held run inPrevious samePath
    · rcases atop.named with ⟨sequence, level, merged, -⟩
      rw [path, merged] at samePath
      cases samePath

/-- A fold at the next sequence names its file apart from what is in the catalog. -/
theorem FoldWrites.named (named : ∀ current ∈ layers, current.Named observed)
    (written : FoldWrites forest (observed + 1) layers forest' next file layer) :
    next.Named observed := by
  cases written with
  | rebuilt =>
    refine ⟨nodup_singleton _, fun run member committed => ?_⟩
    rw [mem_singleton.mp member] at committed
    cases committed
  | @layered current _ _ committed streamed =>
    have allCommitted := all_eq_true.mp committed
    have names := named current rfl
    constructor
    · rw [map_append, nodup_append]
      refine ⟨names.nodup, nodup_singleton _, ?_⟩
      rintro path old _ new rfl
      rcases mem_map.mp old with ⟨run, member, rfl⟩
      have bound := names.known run member (allCommitted run member)
      rw [mem_singleton.mp new] at bound
      exact absurd bound (Nat.not_succ_le_self observed)
    · intro run member remote
      rcases mem_append.mp member with old | new
      · exact names.known run old remote
      · rw [mem_singleton.mp new] at remote
        cases remote

/-- A fold at the next sequence leaves a stack that can be committed. -/
theorem LayersOk.fold (ok : store.InOrder) (assembles : store.Assembles)
    (layersOk : LayersOk store observed layers pending)
    (written : FoldWrites forest (observed + 1) layers forest' next file layer)
    (config : FlusherConfig) :
    LayersOk store observed (some next) pending ∧
      Ready config (observed + 1) (some next) layer := by
  have named : ∀ current ∈ some next, current.Named observed := by
    rintro _ ⟨rfl⟩
    exact written.named layersOk.named
  have refold : (∀ run ∈ next.runs, (∃ current ∈ layers, run ∈ current.runs) ∨
      ∃ compact, run.path = .folded (observed + 1) compact) →
      ∀ merge ∈ pending, ∃ inputs, merge.Over observed (some next) inputs := by
    intro origin merge held
    rcases layersOk.atop merge held with ⟨inputs, atop⟩
    exact ⟨inputs, atop.refold origin⟩
  cases written with
  | @rebuilt _ _ level first unsettled streamed inherits =>
    have begins : first ≤ observed + 1 := by
      cases layers with
      | none => exact inherits.le
      | some current =>
        cases isFirst : current.runs.head? with
        | none =>
          simp only [Option.map_some, Option.getD_some, isFirst] at inherits
          exact inherits.le
        | some run =>
          simp only [Option.map_some, Option.getD_some, isFirst] at inherits
          rw [inherits]
          exact layersOk.stack.first_le ok assembles isFirst
    refine ⟨⟨.rebuilt rfl rfl begins le_rfl, named, refold ?_⟩,
      .disk (nil_append _).symm rfl rfl ⟨true, rfl⟩⟩
    intro run member
    rw [mem_singleton.mp member]
    exact Or.inr ⟨true, rfl⟩
  | @layered current _ _ committed streamed =>
    rcases layersOk.stack.exists_snapshot committed with ⟨k, snapshot, seen, stored, described⟩
    refine ⟨⟨.layered rfl rfl seen stored described rfl, named, refold ?_⟩,
      .disk rfl rfl rfl ⟨false, rfl⟩⟩
    intro run member
    rcases mem_append.mp member with old | new
    · exact Or.inl ⟨current, rfl, old⟩
    · rw [mem_singleton.mp new]
      exact Or.inr ⟨false, rfl⟩

/-! ## Merges -/

/-- Runs with the same files as the planned ones are the planned ones. -/
theorem eq_of_paths_eq {runs : List LocalRun}
    (paths : runs.map LocalRun.path = inputs.map LocalRun.path)
    (same : ∀ run ∈ runs, ∀ input ∈ inputs, run.path = input.path → run = input) :
    runs = inputs := by
  induction runs generalizing inputs with
  | nil => exact (map_eq_nil_iff.mp paths.symm).symm
  | cons run runs ih =>
    cases inputs with
    | nil => cases paths
    | cons input inputs =>
      rw [map_cons, map_cons, List.cons.injEq] at paths
      rw [same run mem_cons_self input mem_cons_self paths.1,
        ih paths.2 fun run member input planned =>
          same run (mem_cons_of_mem _ member) input (mem_cons_of_mem _ planned)]

/-- A merge just planned reads committed runs of the stack. -/
theorem Worker.Planned.atop {pending : PendingMerge} {range : RunRange}
    (named : current.Named w.cachedSeq) (plan : w.Planned pending current range (w.cachedSeq + 1)) :
    pending.Over w.cachedSeq w.layers (range.window current.runs) := by
  have nonempty := RunRange.window_ne_nil plan.within Nat.two_pos
  have allCommitted := all_eq_true.mp plan.committed
  rw [plan.layers]
  constructor
  · exact plan.inputs.symm
  · rw [plan.minSequence]
    cases isFirst : (range.window current.runs).head? with
    | none => exact absurd (head?_eq_none_iff.mp isFirst) nonempty
    | some run =>
      unfold RunRange.window at isFirst
      rw [isFirst]
      rfl
  · rw [plan.maxSequence]
    cases isLast : (range.window current.runs).getLast? with
    | none => exact absurd (getLast?_eq_none_iff.mp isLast) nonempty
    | some run =>
      unfold RunRange.window at isLast
      rw [isLast]
      rfl
  · intro input planned
    have member := RunRange.mem_of_mem_window planned
    exact named.known input member (allCommitted input member)
  · rintro _ ⟨rfl⟩ run member input planned samePath
    exact inj_on_of_nodup_map named.nodup member (RunRange.mem_of_mem_window planned) samePath
  · exact ⟨_, _, plan.path, le_rfl⟩
  · rintro _ ⟨rfl⟩ run member samePath
    have bound := named.known run member (allCommitted run member)
    rw [samePath, plan.path] at bound
    exact absurd bound (Nat.not_succ_le_self _)

/-- Whatever a tick decides about merges, the merge in flight fits the stack. -/
theorem LayersOk.left (layersOk : LayersOk store w.cachedSeq w.layers w.pendingMerge)
    (left : w.MergeLeft (w.cachedSeq + 1) pending) :
    LayersOk store w.cachedSeq w.layers pending := by
  refine ⟨layersOk.stack, layersOk.named, ?_⟩
  cases left with
  | none => exact fun merge held => by cases held
  | kept => exact layersOk.atop
  | planned plan =>
    rintro merge ⟨rfl⟩
    exact ⟨_, plan.atop (layersOk.named _ plan.layers)⟩

theorem Worker.RunsOk.proceeds (mode : config.diskMode = false → w.layers = none)
    (layersOk : LayersOk store w.cachedSeq w.layers w.pendingMerge)
    (next : seen.sequence = w.cachedSeq + 1) (proceeds : w.Proceeds seen w') :
    w'.RunsOk config store := by
  cases proceeds with
  | refused layers within unsliced left | nothing empty left | batch nonempty left | await left =>
    exact ⟨mode, layersOk.left (next ▸ left), trivial⟩
  | @upload pending file current range again ready finished layers located committed =>
    refine ⟨mode, layersOk.left .none, rfl, layers, committed, (locateRunWindow_spec located).1, ?_⟩
    rcases layersOk.atop pending ready with ⟨inputs, atop⟩
    have found := (locateRunWindow_spec located).2
    have same : range.window current.runs = inputs := by
      apply eq_of_paths_eq (found.trans atop.paths.symm)
      intro run member input planned
      exact atop.same current layers run (RunRange.mem_of_mem_window member) input planned
    change pending.Over w.cachedSeq w.layers (range.window current.runs)
    rw [same]
    exact atop

/-- A merge is published as a run set that assembles at the next sequence. -/
theorem Publication.Fits.runSet {sequence : Nat} (ok : store.InOrder) (assembles : store.Assembles)
    (stack : StackedOn store observed layers) (fits : publication.Fits observed layers pending)
    (next : observed < sequence)
    (made : spliceRunSet publication.current.runs publication.range (publication.mergedMeta path)
      sequence = some runs) :
    runs ≠ [] ∧ Contiguous runs ∧ EndsAt runs sequence ∧
      runs.length = publication.localPaths.length := by
  rw [fits.current] at stack
  rcases stack.exists_snapshot fits.committed with ⟨k, snapshot, seen, stored, described⟩
  have assembled := assembles k snapshot stored
  rw [spliceRunSet_eq described] at made
  have proper : publication.range.start ≤ publication.range.stop := by
    have within := fits.within
    unfold RunRange.Within at within
    omega
  have split := RunRange.take_window_drop proper snapshot.assembled
  -- the window the merge subsumes, as the catalog lists it
  rcases Option.map_eq_some_iff.mp fits.atop.min with ⟨firstRun, isFirst, min⟩
  rcases Option.map_eq_some_iff.mp fits.atop.max with ⟨lastRun, isLast, max⟩
  rcases (described.window publication.range).head? isFirst with ⟨first, listedFirst, sameFirst⟩
  rcases (described.window publication.range).getLast? isLast with ⟨last, listedLast, sameLast⟩
  have firstMin : first.minSequence = publication.pending.minSequence := by
    rw [(committedMeta?_eq_some_iff.mp sameFirst).2]
    exact min
  have lastMax : last.maxSequence = publication.pending.maxSequence := by
    rw [(committedMeta?_eq_some_iff.mp sameLast).2]
    exact max
  have contiguous := assembled.contiguous
  rw [split] at contiguous
  have spliced := contiguous.splice listedFirst listedLast (publication.mergedMeta path)
    firstMin.symm lastMax.symm
  -- the newest run still ends where the stack ended
  have ends : ∀ newest ∈ (snapshot.assembled.take publication.range.start ++
      publication.mergedMeta path :: snapshot.assembled.drop publication.range.stop).getLast?,
      newest.maxSequence ≤ sequence := by
    intro newest isNewest
    have bound : newest.maxSequence = snapshot.sequence := by
      rw [getLast?_append, Option.mem_def, getLast?_cons, Option.some_or,
        Option.some.injEq] at isNewest
      cases above : (snapshot.assembled.drop publication.range.stop).getLast? with
      | none =>
        rw [above, Option.getD_none] at isNewest
        rw [← isNewest]
        change publication.pending.maxSequence = _
        rw [← lastMax]
        apply assembled.ends
        rw [split, getLast?_append, above, Option.none_or, getLast?_append, listedLast]
        rfl
      | some top =>
        rw [above, Option.getD_some] at isNewest
        rw [← isNewest]
        apply assembled.ends
        rw [split, getLast?_append, above]
        rfl
    rw [bound, ok.named k snapshot stored]
    omega
  rcases spliced.extendNewest ends made with ⟨nonempty, extended, reaches⟩
  refine ⟨nonempty, extended, reaches, ?_⟩
  rw [length_extendNewest made]
  simp only [Publication.localPaths, length_append, length_cons, length_map,
    length_take, length_drop, described.length_eq]

theorem Worker.paths_splicedLayers (lengths : runs.length = publication.localPaths.length)
    (base : LayeredBase) :
    (splicedLayers base runs publication).runs.map LocalRun.path = publication.localPaths := by
  unfold splicedLayers
  rw [map_map]
  exact map_snd_zip lengths.ge

/-- The files of a spliced stack are the merged one and files of the stack it was
spliced into. -/
theorem Publication.origin_of_mem_localPaths {path : LocalPath}
    (member : path ∈ publication.localPaths) :
    path = publication.pending.path ∨ ∃ run ∈ publication.current.runs, run.path = path := by
  unfold Publication.localPaths at member
  rcases mem_append.mp member with below | rest
  · rcases mem_map.mp below with ⟨run, inBelow, rfl⟩
    exact Or.inr ⟨run, mem_of_mem_take inBelow, rfl⟩
  · rcases mem_cons.mp rest with same | above
    · exact Or.inl same
    · rcases mem_map.mp above with ⟨run, inAbove, rfl⟩
      exact Or.inr ⟨run, mem_of_mem_drop inAbove, rfl⟩

/-- A stack with a new file spliced in names its files apart. -/
theorem Publication.named_splicedLayers (names : publication.current.Named observed)
    (committed : publication.current.fullyCommitted = true)
    (within : publication.range.Within 1 publication.current.runs.length)
    (apart : ∀ run ∈ publication.current.runs, run.path ≠ publication.pending.path)
    (bound : publication.pending.path.sequence ≤ observed + 1)
    (lengths : runs.length = publication.localPaths.length) (base : LayeredBase) :
    (Worker.splicedLayers base runs publication).Named (observed + 1) := by
  have paths := Worker.paths_splicedLayers lengths base
  constructor
  · rw [paths]
    unfold Publication.localPaths
    unfold RunRange.Within at within
    have sublist : (publication.current.runs.take publication.range.start ++
        publication.current.runs.drop publication.range.stop).Sublist
          publication.current.runs := by
      conv_rhs => rw [← take_append_drop publication.range.start publication.current.runs]
      exact List.Sublist.append (List.Sublist.refl _) (drop_sublist_drop_left _ (by omega))
    have rest := names.nodup.sublist (sublist.map LocalRun.path)
    rw [map_append] at rest
    rw [nodup_middle, nodup_cons]
    refine ⟨fun member => ?_, rest⟩
    rw [← map_append] at member
    rcases mem_map.mp member with ⟨run, inside, same⟩
    exact apart run (sublist.subset inside) same
  · intro run member _
    have inPaths : run.path ∈ publication.localPaths := by
      rw [← paths]
      exact mem_map.mpr ⟨run, member, rfl⟩
    rcases origin_of_mem_localPaths inPaths with merged | ⟨old, inside, same⟩
    · rw [merged]
      exact bound
    · rw [← same]
      exact (names.known old inside (all_eq_true.mp committed old inside)).trans
        (Nat.le_succ _)

/-- The stack after a merge was committed. -/
theorem Publication.Fits.spliced (fits : publication.Fits observed layers pending)
    (named : ∀ current ∈ layers, current.Named observed) (listed : snapshot.runs ≠ [])
    (lengths : snapshot.runs.length = publication.localPaths.length)
    (stored : store.snapshots[observed + 1]? = some snapshot) (base : LayeredBase) :
    LayersOk store (observed + 1) (some (Worker.splicedLayers base snapshot.runs publication))
      none := by
  refine ⟨.committed le_rfl stored ?_, ?_, by simp⟩
  · rw [snapshot.assembled_of_ne_nil listed]
    exact described_zip lengths
  · rintro _ ⟨rfl⟩
    apply named_splicedLayers (named _ fits.current) fits.committed fits.within
      (fits.atop.new _ fits.current) ?_ lengths base
    rcases fits.atop.named with ⟨sequence, level, path, bound⟩
    rw [path]
    exact bound

/-! ## Batches -/

/-- A step that commits a batch over an older stack does so right above where
that stack ends. -/
def CommitsAdjacent (store : ObjectStore) : Process → Act → Prop
  | .running w, .tick input =>
      match w.tick with
      | .commitData seen _ snapshot =>
          input.reply ≠ .failed → store.Free snapshot.sequence →
            ∀ layers ∈ w.layers, ∀ below ∈ layers.runs.dropLast.getLast?,
              below.maxSequence + 1 = seen.sequence
      | _ => True
  | _, _ => True

section Batch

/-- A stack with a batch to commit: runs the catalog lists, and the new run above
them. -/
structure NewestOver (store : ObjectStore) (observed : Nat) (current : LocalLayers)
    (older : List LocalRun) (newest : LocalRun) (listed : List RunMeta) : Prop where
  runs : current.runs = older ++ [newest]
  uncommitted : newest.remote = none
  forwards : newest.minSequence ≤ newest.maxSequence
  described : Described older listed
  below : listed = [] ∨ newest.minSequence = newest.maxSequence ∧
    ∃ (k : Nat) (snapshot : SnapshotMeta), k ≤ observed ∧ store.snapshots[k]? = some snapshot ∧
      listed = snapshot.assembled

/-- The run that is not committed is the newest one. -/
theorem StackedOn.exists_newest (stack : StackedOn store observed (some current))
    (runs : current.runs = older ++ [newest]) (uncommitted : newest.remote = Option.none) :
    ∃ listed, NewestOver store observed current older newest listed := by
  cases stack with
  | committed seen stored described =>
    have committed := described.fullyCommitted
    rw [LocalLayers.not_fullyCommitted runs uncommitted] at committed
    cases committed
  | @rebuilt _ newest' runs' uncommitted' forwards bound =>
    have both := runs
    rw [runs', ← nil_append [newest']] at both
    rcases append_inj' both rfl with ⟨rfl, ⟨⟩⟩
    exact ⟨[], runs, uncommitted, forwards, .nil, Or.inl rfl⟩
  | layered runs' uncommitted' seen stored described single =>
    have both := runs
    rw [runs'] at both
    rcases append_inj' both rfl with ⟨rfl, ⟨⟩⟩
    exact ⟨_, runs, uncommitted, single.le, described, Or.inr ⟨single, _, _, seen, stored, rfl⟩⟩

theorem LocalLayers.runs_markCommitted (runs : current.runs = older ++ [newest])
    (path : ObjectPath) :
    (current.markCommitted path).runs = older ++ [{ newest with remote := some path }] := by
  unfold LocalLayers.markCommitted
  rw [runs, getLast?_concat, dropLast_concat]

/-- The newest file becomes known once it is committed. -/
theorem LocalLayers.Named.markCommitted (names : current.Named observed)
    (runs : current.runs = older ++ [newest]) (bound : newest.path.sequence ≤ observed + 1)
    (path : ObjectPath) : (current.markCommitted path).Named (observed + 1) := by
  have marked := LocalLayers.runs_markCommitted runs path
  have samePaths : (current.markCommitted path).runs.map LocalRun.path =
      current.runs.map LocalRun.path := by
    rw [marked, runs, map_append, map_append]
    rfl
  refine ⟨by rw [samePaths]; exact names.nodup, fun run member remote => ?_⟩
  rw [marked] at member
  rcases mem_append.mp member with old | new
  · have inRuns : run ∈ current.runs := by
      rw [runs]
      exact mem_append_left _ old
    exact (names.known run inRuns remote).trans (Nat.le_succ _)
  · rw [mem_singleton.mp new]
    exact bound

namespace NewestOver

variable {listed : List RunMeta}

theorem runMetas (atop : NewestOver store observed current older newest listed)
    (path : ObjectPath) : current.runMetas path = some (listed ++ [newest.toMeta path]) :=
  LocalLayers.runMetas_eq atop.runs atop.uncommitted atop.described path

/-- The run below the new one, in the stack and in the catalog. -/
theorem last_iff (atop : NewestOver store observed current older newest listed) (sequence : Nat) :
    (∀ below ∈ current.runs.dropLast.getLast?, below.maxSequence + 1 = sequence) ↔
      ∀ last ∈ listed.getLast?, last.maxSequence + 1 = sequence := by
  rw [atop.runs, dropLast_concat]
  cases isLast : older.getLast? with
  | none =>
    rw [getLast?_eq_none_iff] at isLast
    have none := atop.described
    rw [isLast] at none
    rw [forall₂_nil_left_iff.mp none]
    simp
  | some run =>
    rcases atop.described.getLast? isLast with ⟨last, listedLast, same⟩
    rw [listedLast]
    simp only [Option.mem_def, Option.some.injEq, forall_eq']
    rw [(committedMeta?_eq_some_iff.mp same).2]
    rfl

/-- The new run fits above a stack that ends right below it. -/
theorem contiguous (assembles : store.Assembles)
    (atop : NewestOver store observed current older newest listed) (path : ObjectPath)
    (adjacent : ∀ last ∈ listed.getLast?, last.maxSequence + 1 = newest.maxSequence) :
    Contiguous (listed ++ [newest.toMeta path]) := by
  rw [contiguous_append_iff]
  refine ⟨?_, contiguous_singleton atop.forwards, ?_⟩
  · rcases atop.below with rfl | ⟨-, k, snapshot, -, stored, rfl⟩
    · exact ⟨by simp, isChain_nil⟩
    · exact (assembles k snapshot stored).contiguous
  · rintro last isLast _ ⟨rfl⟩
    change last.maxSequence + 1 = newest.minSequence
    rcases atop.below with rfl | ⟨single, -⟩
    · cases isLast
    · rw [single]
      exact adjacent last isLast

/-- The listed runs are in the order of their spans, whether or not there is a
gap. -/
theorem ascending (ok : store.InOrder) (assembles : store.Assembles)
    (atop : NewestOver store observed current older newest listed) (path : ObjectPath)
    (next : observed < newest.maxSequence) :
    (listed ++ [newest.toMeta path]).Pairwise
      fun run later => run.minSequence ≤ later.minSequence := by
  rcases atop.below with rfl | ⟨single, k, snapshot, seen, stored, rfl⟩
  · simp
  · have assembled := assembles k snapshot stored
    rw [pairwise_append]
    refine ⟨assembled.contiguous.ascending, pairwise_singleton _ _, ?_⟩
    intro run member later isLater
    rw [mem_singleton.mp isLater]
    change run.minSequence ≤ newest.minSequence
    rcases assembled.exists_last with ⟨last, isLast, ends⟩
    have ordered := assembled.contiguous.min_le_last member isLast
    rw [ends, ok.named k snapshot stored] at ordered
    omega

/-- Once the batch is committed, the stack is its run set. -/
theorem markCommitted {store' : ObjectStore}
    (atop : NewestOver store observed current older newest listed)
    (layersOk : LayersOk store observed (some current) pending)
    (named : ∃ compact, newest.path = .folded (observed + 1) compact)
    (listedRuns : snapshot.runs = listed ++ [newest.toMeta path])
    (stored : store'.snapshots[observed + 1]? = some snapshot) :
    LayersOk store' (observed + 1) (some (current.markCommitted path)) pending := by
  have marked := LocalLayers.runs_markCommitted atop.runs path
  rcases named with ⟨compact, path'⟩
  refine ⟨.committed le_rfl stored ?_, ?_, fun merge held => ?_⟩
  · rw [snapshot.assembled_of_ne_nil (by rw [listedRuns]; simp), listedRuns]
    exact LocalLayers.described_markCommitted atop.runs atop.described path
  · rintro _ ⟨rfl⟩
    apply (layersOk.named current rfl).markCommitted atop.runs ?_ path
    rw [path']
    exact le_rfl
  · rcases layersOk.atop merge held with ⟨inputs, planned⟩
    refine ⟨inputs, (planned.refold fun run member => ?_).mono (Nat.le_succ _)⟩
    rw [marked] at member
    rcases mem_append.mp member with old | new
    · refine Or.inl ⟨current, rfl, ?_⟩
      rw [atop.runs]
      exact mem_append_left _ old
    · rw [mem_singleton.mp new]
      exact Or.inr ⟨compact, path'⟩

end NewestOver

end Batch

/-- The newest snapshot assembles when the others did and it does itself. -/
theorem ObjectStore.Assembles.append {store : ObjectStore} (assembles : store.Assembles)
    (new : snapshot.Assembles) : (store.commit snapshot).Assembles := by
  intro k held stored
  rcases ObjectStore.getElem?_commit stored with old | ⟨-, rfl⟩
  · exact assembles k held old
  · exact new

section Commit

variable {input : TickInput}

/-- A merge in its tick assembles, wherever the catalog has got to. -/
theorem Worker.RunsOk.merge_assembles (ok : store.InOrder) (order : w.InOrder store)
    (assembles : store.Assembles) (runs : w.RunsOk config store) {again : Bool}
    (stands : w.tick = .commitMerge seen again publication snapshot) :
    snapshot.Assembles ∧ snapshot.runs ≠ [] ∧
      snapshot.runs.length = publication.localPaths.length := by
  have tick := runs.tick
  have tickOrder := order.tick
  rw [stands] at tick tickOrder
  rcases tick.1.runSet ok assembles runs.layers.stack
    (by rw [tickOrder.1.next]; exact Nat.lt_succ_self _) tick.2 with
    ⟨listed, contiguous, ends, lengths⟩
  rw [← tickOrder.2.1] at ends
  exact ⟨snapshot.assembles_of_contiguous listed contiguous ends, listed, lengths⟩

/-- A batch that is committed right above its stack assembles. -/
theorem Worker.RunsOk.batch_assembles (order : w.InOrder store) (assembles : store.Assembles)
    (runs : w.RunsOk config store) (stands : w.tick = .commitData seen batch snapshot)
    (adjacent : ∀ layers ∈ w.layers, ∀ below ∈ layers.runs.dropLast.getLast?,
      below.maxSequence + 1 = seen.sequence) : snapshot.Assembles := by
  have tick := runs.tick
  have tickOrder := order.tick
  have stack := runs.layers.stack
  rw [stands] at tick tickOrder
  rcases tick with ⟨layer, ready, listedRuns, format, base⟩
  rcases tickOrder with ⟨-, -, sequence, -⟩
  cases held : w.layers with
  | none =>
    rw [held] at ready listedRuns
    cases ready with
    | ram ram =>
      have none : snapshot.runs = [] := listedRuns
      have alone : snapshot.assembled = [⟨snapshot.puffinPath, 0, snapshot.sequence,
        snapshot.sequence⟩] := if_pos none
      refine ⟨?_, ?_, fun _ => ⟨format none, (base rfl).trans sequence.symm⟩⟩
      · rw [alone]
        exact contiguous_singleton le_rfl
      · rw [alone]
        rintro last ⟨rfl⟩
        rfl
  | some current =>
    rw [held] at ready listedRuns stack
    cases ready with
    | @disk _ older newest _ split uncommitted reaches named =>
      rcases stack.exists_newest split uncommitted with ⟨listed, atop⟩
      change snapshot.runs = (current.runMetas snapshot.puffinPath).getD [] at listedRuns
      rw [atop.runMetas, Option.getD_some] at listedRuns
      have below := (atop.last_iff seen.sequence).mp (adjacent current held)
      rw [← reaches] at below
      apply SnapshotMeta.assembles_of_contiguous
      · rw [listedRuns]
        simp
      · rw [listedRuns]
        exact atop.contiguous assembles snapshot.puffinPath below
      · rw [listedRuns, sequence]
        rintro last isLast
        rw [getLast?_concat] at isLast
        cases isLast
        exact reaches

/-- An aligned step keeps every snapshot assembling. -/
theorem ObjectStore.Assembles.storeChange (ok : store.InOrder) (order : w.InOrder store)
    (assembles : store.Assembles) (runs : w.RunsOk config store)
    (adjacent : CommitsAdjacent store (.running w) (.tick input))
    (change : StoreChange input w store store') : store'.Assembles := by
  cases change with
  | merge stands => exact assembles.append (runs.merge_assembles ok order assembles stands).1
  | @batch seen batch snapshot stands arrived taken =>
    simp only [CommitsAdjacent, stands] at adjacent
    exact assembles.append (runs.batch_assembles order assembles stands (adjacent arrived taken))
  | _ => exact assembles

theorem Worker.RunsOk.finish (runs : w.RunsOk config store) (result : Except TickError Unit) :
    (w.finish result).RunsOk config store :=
  ⟨runs.mode, runs.layers, trivial⟩

/-- The merge thread changes nothing but the result of its merge. -/
theorem Worker.RunsOk.finishMerge (runs : w.RunsOk config store) {pending : PendingMerge}
    (held : w.pendingMerge = some pending) (finished : Option (Except TickError PuffinBase)) :
    { w with pendingMerge := some { pending with finished } }.RunsOk config store := by
  refine ⟨runs.mode, ⟨runs.layers.stack, runs.layers.named, ?_⟩, ?_⟩
  · rintro merge ⟨rfl⟩
    rcases runs.layers.atop pending held with ⟨inputs, atop⟩
    exact ⟨inputs, atop.paths, atop.min, atop.max, atop.known, atop.same, atop.named, atop.new⟩
  · have tick := runs.tick
    dsimp only
    cases stands : w.tick with
    | putMerge seen again publication =>
      rw [stands] at tick
      have none := tick.taken
      rw [held] at none
      cases none
    | commitMerge seen again publication snapshot =>
      rw [stands] at tick
      have none := tick.1.taken
      rw [held] at none
      cases none
    | _ =>
      rw [stands] at tick
      exact tick

/-- A follower's fold leaves a stack of the same kind. -/
theorem Worker.RunsOk.follow (ok : store.InOrder) (assembles : store.Assembles)
    (mode : config.diskMode = false → w.layers = none)
    (layersOk : LayersOk store w.cachedSeq w.layers w.pendingMerge) (diskOk : Bool) :
    (w.follow config (w.cachedSeq + 1) diskOk).RunsOk config store := by
  rcases w.follow_effect config (w.cachedSeq + 1) diskOk with ⟨folded, effect, same⟩
  rw [same]
  cases effect with
  | kept | fails => exact ⟨mode, layersOk, trivial⟩
  | writes disk works written =>
    exact ⟨fun ram => absurd (disk.symm.trans ram) (by decide),
      (layersOk.fold ok assembles written config).1, trivial⟩

/-- The stack of a worker whose batch has been committed. -/
theorem Worker.RunsOk.batchCommitted (order : w.InOrder store) (runs : w.RunsOk config store)
    (stands : w.tick = .commitData seen batch snapshot) (appended : store.Appended snapshot) :
    (w.batchCommitted batch snapshot).RunsOk config (store.commit snapshot) := by
  have tick := runs.tick
  have tickOrder := order.tick
  have layersOk := runs.layers
  rw [stands] at tick tickOrder
  rcases tick with ⟨layer, ready, listedRuns, -, -⟩
  rcases tickOrder with ⟨seenOrder, -, sequence, -⟩
  have next : seen.sequence = w.cachedSeq + 1 := seenOrder.next
  have newest : max w.cachedSeq snapshot.sequence = w.cachedSeq + 1 := by
    rw [sequence, next]
    omega
  have stored : (store.commit snapshot).snapshots[w.cachedSeq + 1]? = some snapshot := by
    rw [← next, ← sequence, appended.sequence]
    exact appended.stored
  unfold Worker.batchCommitted
  refine ⟨fun ram => ?_, ?_, trivial⟩
  · dsimp only
    rw [runs.mode ram]
    rfl
  · dsimp only
    rw [newest]
    cases held : w.layers with
    | none =>
      rw [held] at layersOk
      exact layersOk.mono (ObjectStore.grows_commit store snapshot) (Nat.le_succ _)
    | some current =>
      rw [held] at ready listedRuns layersOk
      cases ready with
      | @disk _ older newest _ split uncommitted reaches named =>
        rcases layersOk.stack.exists_newest split uncommitted with ⟨listed, atop⟩
        change snapshot.runs = (current.runMetas snapshot.puffinPath).getD [] at listedRuns
        rw [atop.runMetas, Option.getD_some] at listedRuns
        rw [next] at named
        exact atop.markCommitted layersOk named listedRuns stored

/-- A step of a tick keeps the stack describable. -/
theorem Worker.RunsOk.tickEffect (ok : store.InOrder) (order : w.InOrder store)
    (assembles : store.Assembles) (runs : w.RunsOk config store)
    (effect : TickEffect config input store w store' w') : w'.RunsOk config store' := by
  rcases effect.storeChange.grows ok.fresh with ⟨grows, -⟩
  have kept : w.RunsOk config store' := ⟨runs.mode, runs.layers.mono grows le_rfl, runs.tick⟩
  have tick := runs.tick
  have tickOrder := order.tick
  cases effect with
  | readRefused stands reply found => cases (read_newest ok order.cached found).2
  | follows stands reply found follower =>
    rcases read_newest ok order.cached found with ⟨rfl, ⟨⟩⟩
    rw [(observed_inOrder ok).next]
    exact RunsOk.follow (w := ({ w with cachedSeq := store.count }.dropCovered _)) ok assembles
      runs.mode (runs.layers.mono grows order.cached) input.diskOk
  | leads stands reply found leader proceeds =>
    rcases read_newest ok order.cached found with ⟨rfl, ⟨⟩⟩
    exact RunsOk.proceeds (w := ({ w with cachedSeq := store.count }.dropCovered _)) runs.mode
      (runs.layers.mono grows order.cached) (observed_inOrder ok).next proceeds
  | undescribable stands reply proceeds =>
    rw [stands] at tickOrder
    exact RunsOk.proceeds kept.mode kept.layers tickOrder.next proceeds
  | putMerge stands reply described =>
    rw [stands] at tick
    exact ⟨kept.mode, kept.layers, tick, described⟩
  | commitMergeConflict stands reply taken proceeds =>
    rw [stands] at tickOrder
    exact RunsOk.proceeds kept.mode kept.layers tickOrder.1.next proceeds
  | spliceFails => exact ⟨kept.mode, kept.layers.mono (.refl _) (le_max_left _ _), trivial⟩
  | @commitMerge seen again publication snapshot spliced w' stands reply works free resolved
      proceeds =>
      rcases runs.merge_assembles ok order assembles stands with ⟨-, listed, lengths⟩
      rcases InOrder.merged ok order stands free with ⟨appended, -, above⟩
      rw [stands] at tick tickOrder
      have newest : max w.cachedSeq snapshot.sequence = w.cachedSeq + 1 := by
        rw [tickOrder.2.1, tickOrder.1.next]
        omega
      have stored : (store.commit snapshot).snapshots[w.cachedSeq + 1]? = some snapshot := by
        rw [← tickOrder.1.next, ← tickOrder.2.1, appended.sequence]
        exact appended.stored
      have layersOk := tick.1.spliced runs.layers.named listed lengths stored spliced
      refine RunsOk.proceeds ?_ ?_ above.next proceeds
      · intro ram
        have none := runs.mode ram
        rw [tick.1.current] at none
        cases none
      · dsimp only
        rw [newest, tick.1.taken]
        exact layersOk
  | awaits stands proceeds =>
    rw [stands] at tickOrder
    exact RunsOk.proceeds kept.mode kept.layers tickOrder.next proceeds
  | foldFails stands reply folded =>
    have effect := foldForCommit_effect folded
    cases effect with
    | fails => exact ⟨kept.mode, kept.layers, trivial⟩
  | putData stands reply folded =>
    have effect := foldForCommit_effect folded
    rw [stands] at tickOrder
    cases effect with
    | ram ram =>
      refine ⟨kept.mode, kept.layers, ?_⟩
      have none := runs.mode ram
      change Ready config _ w.layers .base
      rw [none]
      exact .ram ram
    | writes disk works written =>
      rw [tickOrder.1.next] at written
      rcases runs.layers.fold ok assembles written config with ⟨layersOk, ready⟩
      refine ⟨fun ram => absurd (disk.symm.trans ram) (by decide), layersOk.mono grows le_rfl, ?_⟩
      change Ready config _ (some _) _
      rw [tickOrder.1.next]
      exact ready
  | putPuffin stands reply checked =>
    rw [stands] at tick
    refine ⟨kept.mode, kept.layers, _, tick, rfl, fun none => ?_, fun base => ?_⟩
    · have listed : w.commitRuns (store.freshPath _) = [] := none
      change snapshotFormat (w.commitRuns _) _ = 0
      rw [listed]
      rfl
    · rw [base]
      rfl
  | commitData stands reply free =>
    exact runs.batchCommitted order stands (InOrder.committed ok order stands free).1
  | _ => exact kept.finish _

end Commit

/-! ## Starting up -/

/-- What opening the committed state yields, once it is known to assemble. -/
theorem openBase_spec {latest : SnapshotMeta} {base : LayeredBase} {layers : LocalLayers}
    (assembles : latest.Assembles) (mapped : openBase store latest = .ok (base, layers)) :
    fetchRuns store latest.assembled = .ok base.layers ∧
      layers = ⟨base, latest.assembled.map fun run => LocalRun.committed run (.cached run)⟩ := by
  unfold openBase at mapped
  rw [assembles.committedRuns] at mapped
  rcases bind_eq_ok_iff.mp mapped with ⟨runs, ⟨rfl⟩, rest⟩
  rcases bind_eq_ok_iff.mp rest with ⟨files, fetched, rest⟩
  rcases bind_eq_ok_iff.mp rest with ⟨stack, stacked, ⟨⟩⟩
  refine ⟨?_, rfl⟩
  unfold LayeredBase.fromLayers at stacked
  split at stacked
  · cases stacked
  · cases stacked
    exact fetched

theorem Process.RunsOk.loaded {boot : Boot} (ok : store.InOrder) (assembles : store.Assembles)
    (loaded : Loaded config store boot) : (Process.booting boot).RunsOk config store := by
  have newest := loaded.newest ok
  cases loaded with
  | fresh | hydrated => exact ⟨fun _ => rfl, .none, by simp, by simp⟩
  | @opened cachedSeq latest base layers disk read mapped =>
    rcases newest with ⟨rfl, hydrated⟩
    have stored : store.snapshots[store.count]? = some latest := hydrated.symm
    have assembled := assembles _ latest stored
    rcases openBase_spec assembled mapped with ⟨-, rfl⟩
    refine ⟨fun ram => absurd (disk.symm.trans ram) (by decide),
      .committed le_rfl stored (described_cached _), ?_, by simp⟩
    rintro _ ⟨rfl⟩
    constructor
    · rw [map_map]
      have apart := assembled.contiguous.strictlyAscending
      rw [List.Nodup, pairwise_map]
      refine apart.imp fun before same => ?_
      have same := LocalPath.cached.inj same
      rw [same] at before
      exact lt_irrefl _ before
    · intro run member _
      rcases mem_map.mp member with ⟨listed, -, rfl⟩
      exact Nat.zero_le _

/-- An aligned step of a process keeps all that is known about run sets. -/
theorem Process.RunsOk.effect {process' : Process} {act : Act} (ok : store.InOrder)
    (order : process.InOrder store) (assembles : store.Assembles)
    (runs : process.RunsOk config store) (adjacent : CommitsAdjacent store process act)
    (effect : ProcessEffect log config store process act store' process') :
    store'.Assembles ∧ process'.RunsOk config store' := by
  cases effect with
  | bootFails | crashes => exact ⟨assembles, trivial⟩
  | boots loaded => exact ⟨assembles, RunsOk.loaded ok assembles (loadState_loaded loaded)⟩
  | @checks boot unchecked =>
    refine ⟨assembles, ?_⟩
    refine Boot.checkStream_rule trivial fun cachedSeq source => ?_
    refine ⟨runs.1, runs.2.mono (.refl store) ?_⟩
    rcases source with rfl | rfl
    · exact le_rfl
    · rw [latest_of_dense ok.dense order.cached]
      exact order.cached
  | seeks checked =>
    rcases Boot.seek_spec ok order with ⟨position, -, sought⟩
    rw [sought]
    exact ⟨assembles, runs.1, runs.2.mono (.refl store) order.cached, trivial⟩
  | applies | appends => exact ⟨assembles, runs.mode, runs.layers, runs.tick⟩
  | finishes held => exact ⟨assembles, Worker.RunsOk.finishMerge runs held _⟩
  | starts => exact ⟨assembles, runs.mode, runs.layers, trivial⟩
  | ticks effect =>
    exact ⟨assembles.storeChange ok order runs adjacent effect.storeChange,
      Worker.RunsOk.tickEffect ok order assembles runs effect⟩

/-! ## Whole executions -/

namespace System

variable {config : Nat → FlusherConfig}

/-- The action commits a batch only right above the stack it lies over. -/
def CommitsAdjacent (s : System) (action : Action) : Prop :=
  Blaze.CommitsAdjacent s.store (s.process action.worker) action.act

/-- Every snapshot assembles, and every worker's stack can be described. -/
def RunsOk (config : Nat → FlusherConfig) (s : System) : Prop :=
  s.InOrder ∧ Interleaving.Holds ObjectStore.Assembles
    (fun i store process => process.RunsOk (config i) store) s

theorem runsOk_init : init.RunsOk config := by
  refine ⟨inOrder_init, fun k snapshot stored => ?_, fun _ => trivial⟩
  simp [init, ObjectStore.empty] at stored

theorem runsOk_step {t : System} {action : Action} (runs : s.RunsOk config)
    (adjacent : s.CommitsAdjacent action) (stepped : step log config s action = some t) :
    t.RunsOk config := by
  rcases runs with ⟨ordered, holds⟩
  refine ⟨inOrder_step ordered stepped, ?_⟩
  apply Interleaving.Holds.step holds stepped
  · intro store process taken
    exact Process.RunsOk.effect ordered.shared (ordered.own _) holds.shared (holds.own _) adjacent
      (Process.step_effect taken)
  · intro store process taken j other claim
    exact claim.stable ((Process.step_effect taken).grows ordered.shared.fresh).1

theorem runsOk_run {actions : List Action} (performed : run log config actions = some s)
    (aligned : Execution.Allowed (step log config) CommitsAdjacent actions init) :
    s.RunsOk config :=
  Execution.run_invariant (RunsOk config)
    (fun _ _ _ runs adjacent stepped => runsOk_step runs adjacent stepped) runsOk_init performed
    aligned

end System

end Blaze
