import Blaze.System.DataFiles

/-!
# The ingest pipeline

The pipeline applies batches of log records to the forest and appends them to the
buffer.  A log delivers at least once, so records at or below the position are skipped;
a batch with a record out of order is abandoned where it stands.  As long as no record
overtakes an earlier one of its partition, every record is ingested exactly once.
-/

namespace Blaze

open Execution

universe u

/-- The forest, the buffer and the position of a worker, and the offset of partition
zero that it reports. -/
structure Pipeline (β : Type u) where
  forest : ScopedForest β
  buffer : EdgeBuffer
  position : StreamPosition
  lastOffset : Nat

namespace Pipeline

variable {β : Type u} [RoutingBase β]

/-- Start from a committed position. -/
def resuming (forest : ScopedForest β) (buffer : EdgeBuffer) (start : StreamPosition) :
    Pipeline β where
  forest := forest
  buffer := buffer
  position := start
  lastOffset := start.get 0

/-- Apply and buffer a record, and advance to it. -/
def ingest (p : Pipeline β) (record : Record) : Pipeline β :=
  { p with
    forest := p.forest.apply record.event
    buffer := p.buffer.append record
    position := p.position.advance record.partition record.offset }

/-- The loop over the records of a batch; `seen` is the highest offset of each partition
in this batch. -/
def applyRecords (seen : StreamPosition) (p : Pipeline β) :
    List Record → Pipeline β × Except String Unit
  | [] => (p, .ok ())
  | record :: records =>
      if record.offset = 0 then
        (p, .error "log delivered offset 0, which is reserved for an empty position")
      else
        let previous := seen.get record.partition
        if record.offset ≤ previous ∧ previous ≠ 0 then
          (p, .error (s!"log delivered offset {record.offset} after {previous} on " ++
            s!"partition {record.partition}: a partition is an ordered log"))
        else
          let seen := seen.advance record.partition record.offset
          if record.offset ≤ p.position.get record.partition then
            applyRecords seen p records
          else
            applyRecords seen (p.ingest record) records

/-- Apply a batch of log records under the offsets the log gave them. -/
def applyBatch (p : Pipeline β) (records : List Record) : Pipeline β × Except String Nat :=
  let applied := p.applyRecords StreamPosition.new records
  match applied.2 with
  | .error text => (applied.1, .error text)
  | .ok () =>
      let reached := applied.1.position.get 0
      ({ applied.1 with lastOffset := reached }, .ok reached)

/-- A call leaves the pipeline in some state, whether it succeeds or not. -/
def call (p : Pipeline β) (records : List Record) : Option (Pipeline β) :=
  some (p.applyBatch records).1

end Pipeline

/-! ## What a log delivers -/

/-- Every record the log has before this one is at or below the position, or among
the records delivered just before. -/
def Log.Preceded (log : Log) (position : StreamPosition) (before : List Record)
    (record : Record) : Prop :=
  ∀ o < record.offset, ∀ event ∈ log.record record.partition o,
    o ≤ position.get record.partition ∨ ⟨record.partition, o, event⟩ ∈ before

instance (log : Log) (position : StreamPosition) (before : List Record) (record : Record) :
    Decidable (log.Preceded position before record) :=
  inferInstanceAs (Decidable (∀ o < record.offset, ∀ event ∈ log.record record.partition o,
    o ≤ position.get record.partition ∨ ⟨record.partition, o, event⟩ ∈ before))

instance (log : Log) (record : Record) : Decidable (log.Has record) :=
  inferInstanceAs (Decidable (log.record record.partition record.offset = some record.event))

/-- A batch of records of the log, none of which overtakes an earlier one.  Records may
be delivered again, partitions may interleave, and there may be records without an
offset. -/
def Log.Delivers (log : Log) (position : StreamPosition) (records : List Record) : Prop :=
  ∀ i < records.length, ∀ record ∈ records[i]?,
    record.offset = 0 ∨ (log.Has record ∧ log.Preceded position (records.take i) record)

instance (log : Log) (position : StreamPosition) (records : List Record) :
    Decidable (log.Delivers position records) :=
  inferInstanceAs (Decidable (∀ i < records.length, ∀ record ∈ records[i]?,
    record.offset = 0 ∨ (log.Has record ∧ log.Preceded position (records.take i) record)))

namespace Log

variable {log : Log} {position : StreamPosition} {record : Record} {records : List Record}

theorem Delivers.head (delivers : log.Delivers position (record :: records))
    (numbered : record.offset ≠ 0) :
    log.Has record ∧ ∀ o < record.offset, position.get record.partition < o →
      log.record record.partition o = none := by
  rcases delivers 0 (Nat.zero_lt_succ _) record rfl with reserved | ⟨has, preceded⟩
  · exact absurd reserved numbered
  · refine ⟨has, fun o less above => ?_⟩
    cases stored : log.record record.partition o with
    | none => rfl
    | some event =>
      rcases preceded o less event stored with covered | earlier
      · omega
      · cases earlier

/-- Once the position has reached the first record, the rest of the batch follows. -/
theorem Delivers.tail (delivers : log.Delivers position (record :: records))
    {next : StreamPosition} (advanced : ∀ p, position.get p ≤ next.get p)
    (reached : record.offset ≤ next.get record.partition) : log.Delivers next records := by
  intro i inside later here
  rcases delivers (i + 1) (Nat.succ_lt_succ inside) later here with reserved | ⟨has, preceded⟩
  · exact Or.inl reserved
  · refine Or.inr ⟨has, fun o less event stored => ?_⟩
    rcases preceded o less event stored with covered | earlier
    · exact Or.inl (covered.trans (advanced _))
    · rcases List.mem_cons.mp earlier with rfl | between
      · exact Or.inl reached
      · exact Or.inr between

end Log

/-! ## What the pipeline has ingested -/

/-- Since `start` the pipeline has applied and buffered the records `applied`, each
once, and these are the records of the log up to its position. -/
structure Pipeline.Ingested {β : Type u} [RoutingBase β] (log : Log) (start p : Pipeline β)
    (applied : List Record) : Prop where
  forest : p.forest = applied.foldl (fun forest record => forest.apply record.event) start.forest
  buffer : p.buffer = applied.foldl EdgeBuffer.append start.buffer
  once : applied.Nodup
  exactly : ∀ record, record ∈ applied ↔ log.Has record ∧
    start.position.get record.partition < record.offset ∧
      record.offset ≤ p.position.get record.partition
  advanced : ∀ q, start.position.get q ≤ p.position.get q

namespace Pipeline

variable {β : Type u} [RoutingBase β] {log : Log} {start p : Pipeline β} {applied : List Record}

theorem ingested_refl (start : Pipeline β) : start.Ingested log start [] where
  forest := rfl
  buffer := rfl
  once := List.nodup_nil
  exactly record := by
    constructor
    · intro member
      cases member
    · rintro ⟨-, above, below⟩
      omega
  advanced _ := le_rfl

/-- The next record of a partition has not been ingested before, and nothing lies
between it and the position. -/
theorem Ingested.ingest (ingested : start.Ingested log p applied) {record : Record}
    (has : log.Has record) (isNext : log.IsNext p.position record.partition record.offset) :
    start.Ingested log (p.ingest record) (applied ++ [record]) := by
  have advanced : ∀ q, p.position.get q ≤ (p.ingest record).position.get q :=
    StreamPosition.get_le_get_advance p.position _ _
  have fresh : record ∉ applied := by
    intro member
    have below := ((ingested.exactly record).mp member).2.2
    have above := isNext.1
    omega
  constructor
  · rw [List.foldl_concat, ← ingested.forest]
    rfl
  · rw [List.foldl_concat, ← ingested.buffer]
    rfl
  · rw [← List.concat_eq_append]
    exact ingested.once.concat fresh
  · intro other
    rw [List.mem_append, List.mem_singleton, ingested.exactly]
    constructor
    · rintro (⟨otherHas, above, below⟩ | rfl)
      · exact ⟨otherHas, above, below.trans (advanced _)⟩
      · refine ⟨has, (ingested.advanced _).trans_lt isNext.1, ?_⟩
        change _ ≤ (p.position.advance other.partition other.offset).get _
        rw [StreamPosition.get_advance_self]
        exact le_max_right _ _
    · rintro ⟨otherHas, above, below⟩
      by_cases already : other.offset ≤ p.position.get other.partition
      · exact Or.inl ⟨otherHas, above, already⟩
      · exact Or.inr (isNext.unique has otherHas (Nat.lt_of_not_le already) below)
  · exact fun q => (ingested.advanced q).trans (advanced q)

/-! ## The loop over a batch -/

/-- Ingesting records one by one, each of them the next of its partition. -/
inductive Ingests (log : Log) : Pipeline β → List Record → Pipeline β → Prop
  | done (p : Pipeline β) : Ingests log p [] p
  | next {p target : Pipeline β} {record : Record} {more : List Record} (has : log.Has record)
      (isNext : log.IsNext p.position record.partition record.offset)
      (rest : Ingests log (p.ingest record) more target) : Ingests log p (record :: more) target

variable {target : Pipeline β} {more : List Record}

theorem Ingested.ingests (ingested : start.Ingested log p applied)
    (ingests : p.Ingests log more target) : start.Ingested log target (applied ++ more) := by
  induction ingests generalizing applied with
  | done =>
    rw [List.append_nil]
    exact ingested
  | next has isNext rest ih =>
    have further := ih (ingested.ingest has isNext)
    rwa [List.append_assoc] at further

theorem reached_ingest (p : Pipeline β) (record : Record) :
    record.offset ≤ (p.ingest record).position.get record.partition := by
  change _ ≤ (p.position.advance record.partition record.offset).get _
  rw [StreamPosition.get_advance_self]
  exact le_max_right _ _

theorem position_le_ingest (p : Pipeline β) (record : Record) (q : PartitionId) :
    p.position.get q ≤ (p.ingest record).position.get q :=
  StreamPosition.get_le_get_advance p.position _ _ q

/-- Every record is refused, skipped because the position covers it, or the next one
of its partition. -/
theorem applyRecords_ingests {records : List Record} (seen : StreamPosition)
    (delivers : log.Delivers p.position records) :
    ∃ more, more.Sublist records ∧ p.Ingests log more (p.applyRecords seen records).1 := by
  induction records generalizing p seen with
  | nil => exact ⟨[], .slnil, .done p⟩
  | cons record records ih =>
    rw [applyRecords]
    split
    · exact ⟨[], List.nil_sublist _, .done p⟩
    · next numbered =>
      dsimp only
      split
      · exact ⟨[], List.nil_sublist _, .done p⟩
      · split
        · next skipped =>
          obtain ⟨more, among, rest⟩ := ih _ (delivers.tail (fun _ => le_rfl) skipped)
          exact ⟨more, among.cons record, rest⟩
        · next unapplied =>
          obtain ⟨has, between⟩ := delivers.head numbered
          obtain ⟨more, among, rest⟩ := ih (seen.advance _ _)
            (delivers.tail (p.position_le_ingest record) (p.reached_ingest record))
          exact ⟨record :: more, among.cons_cons record,
            .next has ⟨Nat.lt_of_not_le unapplied, between⟩ rest⟩

/-- The position never goes back, whatever is delivered. -/
theorem position_le_applyRecords (seen : StreamPosition) (p : Pipeline β) (records : List Record)
    (q : PartitionId) :
    p.position.get q ≤ (p.applyRecords seen records).1.position.get q := by
  induction records generalizing p seen with
  | nil => exact le_rfl
  | cons record records ih =>
    rw [applyRecords]
    split
    · exact le_rfl
    · dsimp only
      split
      · exact le_rfl
      · split
        · exact ih _ p
        · exact (p.position_le_ingest record q).trans (ih _ _)

/-- After the loop only the reported offset changes. -/
theorem applyBatch_eq (p : Pipeline β) (records : List Record) :
    ∃ lastOffset, (p.applyBatch records).1 =
      { (p.applyRecords StreamPosition.new records).1 with lastOffset } := by
  unfold applyBatch
  dsimp only
  split
  · exact ⟨_, rfl⟩
  · exact ⟨_, rfl⟩

theorem position_le_applyBatch (p : Pipeline β) (records : List Record) (q : PartitionId) :
    p.position.get q ≤ (p.applyBatch records).1.position.get q := by
  obtain ⟨lastOffset, result⟩ := p.applyBatch_eq records
  rw [result]
  exact position_le_applyRecords _ p records q

/-- A call of `applyBatch`, whether it succeeds or not. -/
theorem Ingested.applyBatch {records : List Record} (ingested : start.Ingested log p applied)
    (delivers : log.Delivers p.position records) :
    ∃ more, start.Ingested log (p.applyBatch records).1 (applied ++ more) := by
  obtain ⟨more, -, ingests⟩ := applyRecords_ingests StreamPosition.new delivers
  obtain ⟨lastOffset, result⟩ := p.applyBatch_eq records
  rw [result]
  have further := ingested.ingests ingests
  exact ⟨more, further.forest, further.buffer, further.once, further.exactly, further.advanced⟩

/-- A sequence of calls always runs through. -/
theorem exists_run (batches : List (List Record)) (p : Pipeline β) :
    ∃ target, Execution.run call batches p = some target := by
  induction batches generalizing p with
  | nil => exact ⟨p, rfl⟩
  | cons records batches ih => exact ih (p.applyBatch records).1

end Pipeline

/-! ## The steps of a worker -/

/-- The part of a worker that `applyBatch` works on. -/
def Worker.pipeline (w : Worker) : Pipeline LayeredBase :=
  Pipeline.resuming w.forest w.buffer w.position

/-- Put the state of a pipeline back into the worker. -/
def Worker.withPipeline (w : Worker) (p : Pipeline LayeredBase) : Worker :=
  { w with forest := p.forest, buffer := p.buffer, position := p.position }

section Worker

variable {log : Log} {config : Nat → FlusherConfig} {s : System} {i : Nat} {w : Worker}
  {p target : Pipeline LayeredBase}

/-- Ingesting the next record of a partition takes two steps. -/
theorem System.run_ingest {record : Record} (free : w.applying = none)
    (running : s.process i = .running (w.withPipeline p)) (has : log.Has record)
    (isNext : log.IsNext p.position record.partition record.offset) :
    Execution.run (step log config) (Script.ingest i record.partition record.offset) s =
      some (s.update i s.store (.running (w.withPipeline (p.ingest record)))) := by
  have applied : (w.withPipeline p).applyRecord log record.partition record.offset =
      some { w.withPipeline p with
        forest := p.forest.apply record.event, applying := some record } := by
    unfold Worker.applyRecord
    rw [if_pos ⟨Option.isNone_iff_eq_none.mpr free, isNext⟩, has]
    rfl
  simp only [Script.ingest, Execution.run, System.step, Interleaving.step, running, Process.step,
    applied, Worker.appendRecord, Option.map_some, Option.bind_some,
    Interleaving.update_process_self, Interleaving.update_store, Interleaving.update_update]
  rw [← free]
  rfl

theorem System.run_ingests {more : List Record} (ingests : p.Ingests log more target)
    (free : w.applying = none) (running : s.process i = .running (w.withPipeline p)) :
    Execution.run (step log config)
        (more.flatMap fun record => Script.ingest i record.partition record.offset) s =
      some (s.update i s.store (.running (w.withPipeline target))) := by
  induction ingests generalizing s with
  | done => exact congrArg some (Interleaving.update_self running).symm
  | next has isNext rest ih =>
    rw [List.flatMap_cons, run_append, run_ingest free running has isNext,
      Option.bind_some, ih (Interleaving.update_process_self ..), Interleaving.update_update]
    rfl

end Worker

/-- What a batch does to a worker, successful or not, the worker does in steps of its own:
it applies and appends some of the records one by one. -/
theorem applyBatch_refines {log : Log} {config : Nat → FlusherConfig} {s : System} {i : Nat}
    {w : Worker} (running : s.process i = .running w) (free : w.applying = none)
    {records : List Record} (delivers : log.Delivers w.position records) :
    ∃ more : List Record, more.Sublist records ∧ Execution.run (System.step log config)
        (more.flatMap fun record => Script.ingest i record.partition record.offset) s =
      some (s.update i s.store
        (.running (w.withPipeline (w.pipeline.applyBatch records).1))) := by
  obtain ⟨more, among, ingests⟩ :=
    Pipeline.applyRecords_ingests (p := w.pipeline) StreamPosition.new delivers
  obtain ⟨lastOffset, result⟩ := w.pipeline.applyBatch_eq records
  refine ⟨more, among, ?_⟩
  rw [result]
  exact (System.run_ingests (p := w.pipeline) ingests free running).trans rfl

/-- A worker that has booted is given a batch with one record twice. -/
theorem applyBatch_refines_abandoned :
    let twice : List Record := List.replicate 2 ⟨0, 1, ⟨1, 2, .global, 0, none⟩⟩
    let step := System.step (Script.lines 3) fun _ => Script.worker true
    ∃ s w, Execution.run step (Script.boot 0) System.init = some s ∧ s.process 0 = .running w ∧
      ∃ more : List Record, more.Sublist twice ∧ Execution.run step
          (more.flatMap fun record => Script.ingest 0 record.partition record.offset) s =
        some (s.update 0 s.store (.running (w.withPipeline (w.pipeline.applyBatch twice).1))) := by
  intro twice step
  refine exists_with_of_any (fun s => (s.process 0).worker?.any fun w =>
    decide (w.applying = none ∧ (Script.lines 3).Delivers w.position twice)) (by decide) ?_
  intro s performed booted
  obtain ⟨w, held, ready⟩ := (Option.any_eq_true _ _).mp booted
  obtain ⟨free, delivers⟩ := of_decide_eq_true ready
  have running := Process.eq_running held
  exact ⟨w, running, applyBatch_refines running free delivers⟩

/-! ## Any sequence of batches -/

/-- After every sequence of calls, successful or not, the pipeline has applied and
buffered each record of the log between the start and its position exactly once, and
nothing else; and no call takes the position back. -/
theorem batches_ingest_exactly_once {β : Type u} [RoutingBase β] {log : Log}
    {forest : ScopedForest β} {buffer : EdgeBuffer} {start : StreamPosition}
    {batches : List (List Record)}
    (delivered : Allowed Pipeline.call (fun p records => log.Delivers p.position records)
      batches (Pipeline.resuming forest buffer start)) :
    ∃ p, Execution.run Pipeline.call batches (Pipeline.resuming forest buffer start) = some p ∧
      (∃ applied, (Pipeline.resuming forest buffer start).Ingested log p applied) ∧
      ∀ records q, p.position.get q ≤ (p.applyBatch records).1.position.get q := by
  obtain ⟨p, performed⟩ := Pipeline.exists_run batches (Pipeline.resuming forest buffer start)
  refine ⟨p, performed, ?_, p.position_le_applyBatch⟩
  apply run_invariant
    (fun p => ∃ applied, (Pipeline.resuming forest buffer start).Ingested log p applied) _ _
    performed delivered
  · rintro p records after ⟨applied, ingested⟩ delivers called
    cases called
    obtain ⟨more, further⟩ := ingested.applyBatch delivers
    exact ⟨applied ++ more, further⟩
  · exact ⟨[], Pipeline.ingested_refl _⟩

/-- The second batch delivers a record again, goes on, and is abandoned at a record that
it delivers twice. -/
theorem batches_ingest_exactly_once_after_abandoned :
    let resumed := Pipeline.resuming (ScopedForest.new : ScopedForest LayeredBase)
      EdgeBuffer.new StreamPosition.new
    let joins (p o : Nat) : Record := ⟨p, o, ⟨100 * p + o, 100 * p + o + 1, .global, 0, none⟩⟩
    let batches := [[joins 0 1, joins 1 1], [joins 0 1, joins 0 2, joins 0 2, joins 0 3]]
    ∃ p, Execution.run Pipeline.call batches resumed = some p ∧
      p.position.get 0 = 2 ∧ p.position.get 1 = 1 ∧
      ∃ applied, resumed.Ingested (Script.lines 3) p applied := by
  intro resumed joins batches
  have delivered : Allowed Pipeline.call
      (fun p records => (Script.lines 3).Delivers p.position records) batches resumed := by decide
  obtain ⟨p, performed, ingested, -⟩ := batches_ingest_exactly_once delivered
  have reaches : (Execution.run Pipeline.call batches resumed).any (fun p =>
      decide (p.position.get 0 = 2 ∧ p.position.get 1 = 1)) = true := by decide
  rw [performed] at reaches
  obtain ⟨first, second⟩ := of_decide_eq_true reaches
  exact ⟨p, performed, first, second, ingested⟩

end Blaze
