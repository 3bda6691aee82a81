import Blaze.System.DataFiles

/-!
# Where a worker starts

A worker that boots reads the catalog for its routing state and reads it again
for the position it resumes from.  When somebody commits in between, the records
between the two positions are in neither.
-/

namespace Blaze

open Execution SnapshotCatalog Script

variable {log : Log} {w : Worker} {config : Nat → FlusherConfig} {actions : List Action}
  {s : System} {p : PartitionId} {o : Nat}

/-! ## Committed positions are offsets of records -/

/-- Every position in the catalog is that of a record, or nothing. -/
def ObjectStore.Logged (log : Log) (store : ObjectStore) : Prop :=
  ∀ k p, store.positionAt k p ≠ 0 → (log.record p (store.positionAt k p)).isSome

section Logged

variable {input : TickInput} {store store' : ObjectStore}

theorem ObjectStore.Logged.append (ok : store.InOrder) (logged : store.Logged log)
    {snapshot : SnapshotMeta} (appended : store.Appended snapshot)
    (attained : ∀ p, snapshot.streamPosition.get p = store.positionAt store.count p ∨
      (log.record p (snapshot.streamPosition.get p)).isSome) :
    (store.commit snapshot).Logged log := by
  have grows := ObjectStore.grows_commit store snapshot
  intro k p present
  by_cases old : k ≤ store.count
  · rw [positionAt_stable ok grows appended.inOrder old] at present ⊢
    exact logged k p present
  · by_cases newest : k = store.count + 1
    · subst newest
      rw [ObjectStore.positionAt_of_getElem? appended.stored] at present ⊢
      rcases attained p with same | record
      · rw [same] at present ⊢
        exact logged _ p present
      · exact record
    · rw [ObjectStore.positionAt_of_not_mem (by
        rw [appended.inOrder.dense, appended.count]
        omega)] at present
      exact absurd rfl present

theorem ObjectStore.Logged.storeChange (ok : store.InOrder) (order : w.InOrder store)
    (data : w.DataOk log store) (logged : store.Logged log)
    (change : StoreChange input w store store') : store'.Logged log := by
  cases change with
  | @merge seen again publication snapshot stands arrived taken =>
    have tick := order.tick
    rw [stands] at tick
    rcases Worker.InOrder.commit_next ok order.cached tick.1 tick.2.1
      (fun p => (tick.2.2 p).ge) taken with ⟨atCount, appended⟩
    refine logged.append ok appended fun p => Or.inl ?_
    rw [tick.2.2, tick.1.position, atCount]
  | @batch seen batch snapshot stands arrived taken =>
    have tick := order.tick
    have batched := data.tick
    rw [stands] at tick batched
    rcases batched with ⟨⟨records, contains⟩, -⟩
    rcases tick with ⟨seenOrder, covers, -, position⟩
    rcases Worker.InOrder.committed ok order stands taken with ⟨appended, atCount, -⟩
    refine logged.append ok appended fun p => ?_
    rw [position]
    by_cases advances : seen.prevPosition.get p < batch.position.get p
    · rcases contains.attained p advances with ⟨record, member, rfl, offset⟩
      rw [← offset, contains.logged record member]
      exact Or.inr rfl
    · refine Or.inl ?_
      have bound := covers p
      have here := seenOrder.position p
      rw [atCount] at here
      omega
  | _ => exact logged

end Logged

namespace System

theorem logged_run (performed : run log config actions = some s) : s.store.Logged log := by
  have both := run_invariant_of_step (fun state : System => state.DataOk log ∧
    state.store.Logged log) ?_ ⟨dataOk_init, ?_⟩ performed
  · exact both.2
  · rintro state action after ⟨data, logged⟩ stepped
    refine ⟨dataOk_step data stepped, ?_⟩
    rcases data with ⟨ordered, holds⟩
    rcases step_effect stepped with ⟨store, process, effect, rfl⟩
    have order := ordered.own action.worker
    have own := holds.own action.worker
    generalize state.process action.worker = before at effect order own
    generalize action.act = act at effect
    cases effect with
    | ticks effect => exact logged.storeChange ordered.shared order own effect.storeChange
    | _ => exact logged
  · intro k p present
    rw [ObjectStore.positionAt_of_not_mem (by simp [init, ObjectStore.empty])] at present
    exact absurd rfl present

end System

/-! ## What a worker applies -/

/-- A step of a tick leaves ingest alone. -/
theorem Worker.TickEffect.ingest_frame {config : FlusherConfig} {input : TickInput}
    {store store' : ObjectStore} {w' : Worker}
    (effect : TickEffect config input store w store' w') :
    w'.position = w.position ∧ w'.applying = w.applying := by
  have decided : ∀ {w₁ : Worker} {seen : Observed}, Proceeds w₁ seen w' →
      w'.position = w₁.position ∧ w'.applying = w₁.applying := by
    intro w₁ seen proceeds
    cases proceeds <;> exact ⟨rfl, rfl⟩
  cases effect with
  | leads stands reply found leader proceeds =>
    have kept := decided proceeds
    exact kept
  | undescribable stands reply proceeds => exact decided proceeds
  | commitMergeConflict stands reply taken proceeds => exact decided proceeds
  | commitMerge stands reply works free resolved proceeds =>
    have kept := decided proceeds
    exact kept
  | awaits stands proceeds => exact decided proceeds
  | foldFails stands reply folded =>
    obtain ⟨forest, layers, rfl⟩ := foldForCommit_frame folded
    exact ⟨rfl, rfl⟩
  | putData stands reply folded =>
    obtain ⟨forest, layers, rfl⟩ := foldForCommit_frame folded
    exact ⟨rfl, rfl⟩
  | _ => exact ⟨rfl, rfl⟩

/-- The worker has applied exactly the records from `start` on that its position
or the record in its hands says. -/
structure Worker.AppliedFrom (log : Log) (start : PartitionId → Nat)
    (applied : PartitionId → Nat → Prop) (w : Worker) : Prop where
  onward : ∀ p, start p ≤ w.position.get p
  applying : w.Applying log
  exactly : ∀ p o, applied p o ↔ (log.record p o).isSome ∧ start p < o ∧
    (o ≤ w.position.get p ∨ ∃ event, w.applying = some ⟨p, o, event⟩)

section Applied

variable {start : PartitionId → Nat} {applied : PartitionId → Nat → Prop} {w' : Worker}

theorem Worker.AppliedFrom.apply (from_ : w.AppliedFrom log start applied) {event : EdgeEvent}
    (idle : w.applying = none) (isNext : log.IsNext w.position p o)
    (stored : log.record p o = some event) :
    { w with forest := w.forest.apply event, applying := some ⟨p, o, event⟩ }.AppliedFrom log
      start fun p' o' => applied p' o' ∨ (p', o') = (p, o) := by
  refine ⟨from_.onward, ?_, fun p' o' => ?_⟩
  · rintro record ⟨rfl⟩
    exact ⟨stored, isNext⟩
  · rw [from_.exactly, idle]
    constructor
    · rintro (⟨present, above, below | ⟨event, none⟩⟩ | ⟨rfl, rfl⟩)
      · exact ⟨present, above, Or.inl below⟩
      · cases none
      · exact ⟨by rw [stored]; rfl, (from_.onward _).trans_lt isNext.1, Or.inr ⟨event, rfl⟩⟩
    · rintro ⟨present, above, below | ⟨event', same⟩⟩
      · exact Or.inl ⟨present, above, Or.inl below⟩
      · cases same
        exact Or.inr rfl

theorem Worker.AppliedFrom.append (from_ : w.AppliedFrom log start applied) {record : Record}
    (held : w.applying = some record) :
    { w with
      buffer := w.buffer.append record
      position := w.position.advance record.partition record.offset
      applying := none }.AppliedFrom log start applied := by
  rcases from_.applying record held with ⟨has, isNext⟩
  have advanced := StreamPosition.get_le_get_advance w.position record.partition record.offset
  refine ⟨fun p => (from_.onward p).trans (advanced p), by simp [Applying], fun p o => ?_⟩
  rw [from_.exactly]
  refine and_congr_right fun present => and_congr_right fun above => ?_
  simp only [held, Option.some.injEq, reduceCtorEq, exists_false, or_false]
  by_cases here : p = record.partition
  · subst here
    rw [StreamPosition.get_advance_self]
    constructor
    · rintro (below | ⟨event, same⟩)
      · exact below.trans (le_max_left _ _)
      · have offset : record.offset = o := congrArg Record.offset same
        rw [offset]
        exact le_max_right _ _
    · intro below
      by_cases passed : o ≤ w.position.get record.partition
      · exact Or.inl passed
      · -- nothing lies between the position and the record in hand
        have reaches : o ≤ record.offset := by omega
        have same : o = record.offset := by
          by_contra different
          have absent := isNext.2 o (by omega) (by omega)
          rw [absent] at present
          cases present
        exact Or.inr ⟨record.event, by rw [same]⟩
  · rw [StreamPosition.get_advance_of_ne _ _ here]
    constructor
    · rintro (below | ⟨event, same⟩)
      · exact below
      · exact absurd (congrArg Record.partition same).symm here
    · exact Or.inl

theorem Worker.AppliedFrom.frame (from_ : w.AppliedFrom log start applied)
    (position : w'.position = w.position) (applying : w'.applying = w.applying) :
    w'.AppliedFrom log start applied := by
  rcases from_ with ⟨onward, inHand, exactly⟩
  refine ⟨by rwa [position], ?_, by rwa [position, applying]⟩
  unfold Applying at inHand ⊢
  rwa [position, applying]

end Applied

/-! ## Booting -/

namespace System

/-- As long as worker `i` lives, it has applied the records from its start
position to where it stands, each by an action of its own. -/
theorem appliedFrom_run {i : Nat} {t : System} (running : s.process i = .running w)
    (idle : w.applying = none) (performed : Execution.run (step log config) actions s = some t)
    (alive : ∀ action ∈ actions, action ≠ ⟨i, .crash⟩) :
    ∃ w', t.process i = .running w' ∧
      w'.AppliedFrom log w.position.get fun p o => ⟨i, .apply p o⟩ ∈ actions := by
  have survives : Allowed (step log config) (fun _ action => action ≠ ⟨i, .crash⟩)
      actions s := allowed_of_forall_mem (fun action member _ => alive action member) s
  refine run_induction (fun past (state : System) => ∃ w',
    state.process i = .running w' ∧
      w'.AppliedFrom log w.position.get fun p o => ⟨i, .apply p o⟩ ∈ past) ?_ ?_ performed
    survives
  · refine ⟨w, running, fun p => le_rfl, by simp [Worker.Applying, idle], fun p o => ?_⟩
    constructor
    · intro impossible
      cases impossible
    · rintro ⟨-, above, below | ⟨event, held⟩⟩
      · omega
      · rw [idle] at held
        cases held
  · rintro past state action after - ⟨w₁, here, soFar⟩ survives stepped
    rcases step_effect stepped with ⟨store, process, effect, rfl⟩
    -- only an apply of this worker counts
    have others : (∀ p o, action ≠ ⟨i, .apply p o⟩) → ∀ {w₂ : Worker},
        w₂.AppliedFrom log w.position.get (fun p o => ⟨i, .apply p o⟩ ∈ past) →
        w₂.AppliedFrom log w.position.get fun p o => ⟨i, .apply p o⟩ ∈ past ++ [action] := by
      intro different w₂ held
      refine ⟨held.onward, held.applying, fun p o => ?_⟩
      rw [← held.exactly, List.mem_append, List.mem_singleton]
      exact or_iff_left (fun same => different p o same.symm)
    by_cases mine : i = action.worker
    · rw [mine, Interleaving.update_process_self]
      rw [← mine, here] at effect
      rcases action with ⟨j, act⟩
      cases mine
      cases effect with
      | applies idle isNext stored =>
        refine ⟨_, rfl, ?_⟩
        have grown := soFar.apply idle isNext stored
        refine ⟨grown.onward, grown.applying, fun p' o' => ?_⟩
        rw [← grown.exactly, List.mem_append, List.mem_singleton]
        refine or_congr_right ⟨fun same => ?_, fun same => ?_⟩
        · cases same
          rfl
        · cases same
          rfl
      | appends held => exact ⟨_, rfl, others (by simp) (soFar.append held)⟩
      | finishes | starts => exact ⟨_, rfl, others (by simp) (soFar.frame rfl rfl)⟩
      | ticks effect =>
        rcases effect.ingest_frame with ⟨position, applying⟩
        exact ⟨_, rfl, others (by simp) (soFar.frame position applying)⟩
      | crashes => exact absurd rfl survives
    · rw [Interleaving.update_process_of_ne _ _ mine]
      refine ⟨w₁, here, others (fun p o same => mine ?_) soFar⟩
      rw [same]

end System

/-- A worker that boots and then consumes the log to its end has hydrated or
applied every record exactly when the snapshot it resumes from covers no more
than the one it was hydrated from. -/
theorem boot_complete_iff {log : Log} {config : Nat → FlusherConfig} {past later : List Action}
    {i : Nat} {boot : Boot} {s t u : System} {w : Worker}
    (reached : System.run log config past = some s) (booting : s.process i = .booting boot)
    (sought : System.step log config s ⟨i, .seek⟩ = some t)
    (consumed : Execution.run (System.step log config) later t = some u)
    (alive : ∀ action ∈ later, action ≠ ⟨i, .crash⟩) (running : u.process i = .running w)
    (toEnd : ∀ p o, (log.record p o).isSome → o ≤ w.position.get p) :
    (∀ p o, (log.record p o).isSome →
      o ≤ boot.hydratedPosition p ∨ ⟨i, .apply p o⟩ ∈ later) ↔
      ∀ p, s.store.positionAt s.store.count p = boot.hydratedPosition p := by
  rcases System.inOrder_run reached with ⟨ok, own⟩
  have order := own i
  rw [booting] at order
  rcases Boot.seek_spec ok order with ⟨position, start, seeks⟩
  -- the worker right after its seek, and what it has applied since
  have begins : t.process i = .running
      { forest := boot.forest
        buffer := EdgeBuffer.new
        position
        applying := none
        layers := boot.layers
        pendingMerge := none
        cachedSeq := s.store.count
        tick := .idle (.ok ()) } := by
    rcases System.step_effect sought with ⟨store, process, effect, rfl⟩
    rw [Interleaving.update_process_self]
    change ProcessEffect log (config i) s.store (s.process i) .seek store process at effect
    rw [booting] at effect
    cases effect with
    | seeks checked => exact seeks
  rcases System.appliedFrom_run begins rfl consumed alive with ⟨w', still, since⟩
  rw [running] at still
  cases still
  constructor
  · intro complete p
    by_contra different
    have behind := order.hydratedPosition_le ok p
    have present := System.logged_run reached s.store.count p (by omega)
    rcases complete p _ present with hydrated | applied
    · omega
    · have above := ((since.exactly p _).mp applied).2.1
      change position.get p < _ at above
      rw [start] at above
      exact lt_irrefl _ above
  · intro same p o present
    by_cases hydrated : o ≤ boot.hydratedPosition p
    · exact Or.inl hydrated
    · refine Or.inr ((since.exactly p o).mpr ⟨present, ?_, Or.inl (toEnd p o present)⟩)
      change position.get p < o
      rw [start, same]
      omega

theorem Script.record_line {length : Nat} (present : ((line length).record p o).isSome) :
    p = 0 ∧ 1 ≤ o ∧ o ≤ length := by
  unfold line at present
  dsimp only at present
  split at present
  · next zero =>
      unfold lines at present
      dsimp only at present
      split at present
      · next inside => exact ⟨zero, inside⟩
      · cases present
  · cases present

/-- After the actions, worker 0 has loaded a state at an offset, and then consumes the
second record and stands at the end of the log. -/
def Script.resumes (actions : List Action) (offset : Nat) : Bool :=
  (System.run (line 2) (fun _ => worker true) actions).any fun s =>
    (s.process 0).boot?.any fun boot => decide (boot.hydratedPosition 0 = offset) &&
      (System.step (line 2) (fun _ => worker true) s ⟨0, .seek⟩).any fun t =>
        (Execution.run (System.step (line 2) fun _ => worker true) (ingest 0 0 2) t).any fun u =>
          (u.process 0).worker?.any fun w => decide (w.position.get 0 = 2)

theorem Script.exists_of_resumes {offset : Nat} (reaches : resumes actions offset = true) :
    ∃ (s t u : System) (boot : Boot) (w : Worker),
      System.run (line 2) (fun _ => worker true) actions = some s ∧
        s.process 0 = .booting boot ∧
        System.step (line 2) (fun _ => worker true) s ⟨0, .seek⟩ = some t ∧
        Execution.run (System.step (line 2) fun _ => worker true) (ingest 0 0 2) t = some u ∧
        u.process 0 = .running w ∧
        (∀ p o, ((line 2).record p o).isSome → o ≤ w.position.get p) ∧
        boot.hydratedPosition 0 = offset := by
  rcases (Option.any_eq_true _ _).mp reaches with ⟨s, reached, rest⟩
  rcases (Option.any_eq_true _ _).mp rest with ⟨boot, booting, rest⟩
  rw [Bool.and_eq_true, decide_eq_true_eq] at rest
  rcases rest with ⟨hydrated, rest⟩
  rcases (Option.any_eq_true _ _).mp rest with ⟨t, sought, rest⟩
  rcases (Option.any_eq_true _ _).mp rest with ⟨u, consumed, rest⟩
  rcases (Option.any_eq_true _ _).mp rest with ⟨w, running, atEnd⟩
  rw [decide_eq_true_eq] at atEnd
  refine ⟨s, t, u, boot, w, reached, Process.eq_booting booting, sought, consumed,
    Process.eq_running running, fun p o present => ?_, hydrated⟩
  rcases record_line present with ⟨rfl, -, bound⟩
  rw [atEnd]
  exact bound

/-- Worker 0 loads the empty table, worker 1 commits the first record, and worker
0 then resumes behind it: it consumes the log to its end and never sees the first
record. -/
theorem boot_loses_record :
    ∃ (s t u : System) (boot : Boot) (w : Worker),
      System.run (line 2) (fun _ => worker true)
          ([⟨0, .boot⟩] ++ Script.boot 1 ++ ingest 1 0 1 ++ lead 1 4 ++
            [⟨0, .checkStream⟩]) = some s ∧
        s.process 0 = .booting boot ∧
        System.step (line 2) (fun _ => worker true) s ⟨0, .seek⟩ = some t ∧
        Execution.run (System.step (line 2) fun _ => worker true)
          (ingest 0 0 2) t = some u ∧
        u.process 0 = .running w ∧
        (∀ p o, ((line 2).record p o).isSome → o ≤ w.position.get p) ∧
        ((line 2).record 0 1).isSome ∧
        ¬ (1 ≤ boot.hydratedPosition 0 ∨ ⟨0, .apply 0 1⟩ ∈ ingest 0 0 2) := by
  have reaches : resumes ([⟨0, .boot⟩] ++ Script.boot 1 ++ ingest 1 0 1 ++
      lead 1 4 ++ [⟨0, .checkStream⟩]) 0 = true := by decide
  rcases exists_of_resumes reaches with
    ⟨s, t, u, boot, w, reached, booting, sought, consumed, running, toEnd, unhydrated⟩
  refine ⟨s, t, u, boot, w, reached, booting, sought, consumed, running, toEnd, by decide, ?_⟩
  rw [unhydrated]
  decide

/-- A worker that restarts alone consumes what it had not committed. -/
theorem boot_complete_iff_after_restart :
    ∃ (s t u : System) (boot : Boot) (w : Worker),
      System.run (line 2) (fun _ => worker true)
          (Script.boot 0 ++ ingest 0 0 1 ++ lead 0 4 ++
            [⟨0, .crash⟩, ⟨0, .boot⟩, ⟨0, .checkStream⟩]) = some s ∧
        s.process 0 = .booting boot ∧
        System.step (line 2) (fun _ => worker true) s ⟨0, .seek⟩ = some t ∧
        Execution.run (System.step (line 2) fun _ => worker true)
          (ingest 0 0 2) t = some u ∧
        u.process 0 = .running w ∧
        (∀ p o, ((line 2).record p o).isSome → o ≤ w.position.get p) ∧
        ((∀ p o, ((line 2).record p o).isSome →
          o ≤ boot.hydratedPosition p ∨ ⟨0, .apply p o⟩ ∈ ingest 0 0 2) ↔
          ∀ p, s.store.positionAt s.store.count p = boot.hydratedPosition p) := by
  have reaches : resumes (Script.boot 0 ++ ingest 0 0 1 ++ lead 0 4 ++
      [⟨0, .crash⟩, ⟨0, .boot⟩, ⟨0, .checkStream⟩]) 1 = true := by decide
  rcases exists_of_resumes reaches with
    ⟨s, t, u, boot, w, reached, booting, sought, consumed, running, toEnd, -⟩
  exact ⟨s, t, u, boot, w, reached, booting, sought, consumed, running, toEnd,
    boot_complete_iff reached booting sought consumed (by decide) running toEnd⟩

end Blaze
