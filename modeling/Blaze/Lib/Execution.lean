import Mathlib.Data.List.Induction

/-!
# Executions of a partial step function

A system is given by a partial step function on states and labelled actions.  An
execution performs a list of actions in order and is undefined as soon as one of
them is not enabled.  The invariant rules speak about executions all of whose
actions are allowed in the state in which they are taken, so that a property of
unrestricted executions and one of restricted executions are proved alike.
-/

namespace Blaze.Execution

universe u v

variable {σ : Type u} {α : Type v}

/-- Perform the actions in order. -/
def run (step : σ → α → Option σ) : List α → σ → Option σ
  | [], state => some state
  | action :: actions, state => (step state action).bind (run step actions)

/-- Every action is allowed in the state in which it is taken. -/
def Allowed (step : σ → α → Option σ) (allowed : σ → α → Prop) : List α → σ → Prop
  | [], _ => True
  | action :: actions, state =>
      allowed state action ∧
        ∀ next, step state action = some next → Allowed step allowed actions next

variable {step : σ → α → Option σ} {allowed : σ → α → Prop}

theorem run_cons (action : α) (actions : List α) (state : σ) :
    run step (action :: actions) state = (step state action).bind (run step actions) :=
  rfl

theorem run_append (first second : List α) (state : σ) :
    run step (first ++ second) state = (run step first state).bind (run step second) := by
  induction first generalizing state with
  | nil => rfl
  | cons action first ih =>
    rw [List.cons_append, run_cons, run_cons]
    cases step state action with
    | none => rfl
    | some next => exact ih next

theorem run_concat (actions : List α) (action : α) (state : σ) :
    run step (actions ++ [action]) state =
      (run step actions state).bind fun middle => step middle action := by
  rw [run_append]
  cases run step actions state with
  | none => rfl
  | some middle =>
    change (step middle action).bind some = step middle action
    cases step middle action <;> rfl

theorem run_concat_iff {actions : List α} {action : α} {state target : σ} :
    run step (actions ++ [action]) state = some target ↔
      ∃ middle, run step actions state = some middle ∧ step middle action = some target := by
  rw [run_concat, Option.bind_eq_some_iff]

theorem allowed_append {first second : List α} {state middle : σ}
    (performed : run step first state = some middle) :
    Allowed step allowed (first ++ second) state ↔
      Allowed step allowed first state ∧ Allowed step allowed second middle := by
  induction first generalizing state with
  | nil =>
    cases performed
    simp [Allowed]
  | cons action first ih =>
    rw [run_cons] at performed
    rcases Option.bind_eq_some_iff.mp performed with ⟨next, taken, rest⟩
    simp only [List.cons_append, Allowed, taken, Option.some.injEq, forall_eq', ih rest, and_assoc]

theorem Allowed.and {also : σ → α → Prop} {actions : List α} {state : σ}
    (every : Allowed step allowed actions state) (too : Allowed step also actions state) :
    Allowed step (fun state action => allowed state action ∧ also state action) actions state := by
  induction actions generalizing state with
  | nil => trivial
  | cons action actions ih =>
    exact ⟨⟨every.1, too.1⟩, fun next taken =>
      ih (every.2 next taken) (too.2 next taken)⟩

/-- Whether an execution is allowed can be decided by performing it. -/
instance decidableAllowed [∀ state action, Decidable (allowed state action)] :
    (actions : List α) → (state : σ) → Decidable (Allowed step allowed actions state)
  | [], _ => isTrue trivial
  | action :: actions, state =>
      match taken : step state action with
      | none => decidable_of_iff (allowed state action)
          ⟨fun here => ⟨here, fun next impossible => by rw [taken] at impossible; cases impossible⟩,
            And.left⟩
      | some next =>
          have := decidableAllowed actions next
          decidable_of_iff (allowed state action ∧ Allowed step allowed actions next)
            ⟨fun both =>
                ⟨both.1, fun other same => by rw [taken] at same; cases same; exact both.2⟩,
              fun every => ⟨every.1, every.2 next taken⟩⟩

/-- An execution is allowed when each of its actions is, in whatever state. -/
theorem allowed_of_forall_mem {actions : List α}
    (always : ∀ action ∈ actions, ∀ state, allowed state action) (state : σ) :
    Allowed step allowed actions state := by
  induction actions generalizing state with
  | nil => trivial
  | cons action actions ih =>
    exact ⟨always action List.mem_cons_self state, fun next _ =>
      ih (fun later member => always later (List.mem_cons_of_mem _ member)) next⟩

/-- An execution is allowed when each of its actions is, in the state that is
reached before it. -/
theorem allowed_of_reached {actions : List α} {state : σ}
    (always : ∀ past action later middle, actions = past ++ action :: later →
      run step past state = some middle → allowed middle action) :
    Allowed step allowed actions state := by
  induction actions generalizing state with
  | nil => trivial
  | cons action actions ih =>
    refine ⟨always [] action actions state rfl rfl, fun next taken => ?_⟩
    apply ih
    rintro past later rest middle rfl reached
    apply always (action :: past) later rest middle rfl
    rw [run_cons, taken]
    exact reached

/-- What holds of the empty execution and survives one more allowed action holds
of every allowed execution; it may speak about the actions taken so far. -/
theorem run_induction (property : List α → σ → Prop) {start : σ} (initially : property [] start)
    (next : ∀ past state action after, run step past start = some state → property past state →
      allowed state action → step state action = some after → property (past ++ [action]) after)
    {actions : List α} {target : σ} (performed : run step actions start = some target)
    (every : Allowed step allowed actions start) : property actions target := by
  induction actions using List.reverseRecOn generalizing target with
  | nil =>
    cases performed
    exact initially
  | append_singleton past action ih =>
    rcases run_concat_iff.mp performed with ⟨middle, before, taken⟩
    rcases (allowed_append before).mp every with ⟨pastAllowed, lastAllowed⟩
    exact next past middle action target before (ih before pastAllowed) lastAllowed.1 taken

/-- An invariant kept by every allowed action holds after every allowed
execution. -/
theorem run_invariant (invariant : σ → Prop)
    (kept : ∀ state action after, invariant state → allowed state action →
      step state action = some after → invariant after)
    {start : σ} (initially : invariant start) {actions : List α} {target : σ}
    (performed : run step actions start = some target)
    (every : Allowed step allowed actions start) : invariant target :=
  run_induction (fun _ state => invariant state) initially
    (fun _ state action after _ holds permitted taken =>
      kept state action after holds permitted taken)
    performed every

/-- The induction rule for unrestricted executions. -/
theorem run_induction_of_step (property : List α → σ → Prop) {start : σ}
    (initially : property [] start)
    (next : ∀ past state action after, run step past start = some state → property past state →
      step state action = some after → property (past ++ [action]) after)
    {actions : List α} {target : σ} (performed : run step actions start = some target) :
    property actions target := by
  apply run_induction property initially _ performed
    (allowed_of_forall_mem (fun _ _ _ => trivial) start : Allowed step (fun _ _ => True) _ _)
  intro past state action after reached holds _ taken
  exact next past state action after reached holds taken

/-- The invariant rule for unrestricted executions. -/
theorem run_invariant_of_step (invariant : σ → Prop)
    (kept : ∀ state action after, invariant state → step state action = some after →
      invariant after)
    {start : σ} (initially : invariant start) {actions : List α} {target : σ}
    (performed : run step actions start = some target) : invariant target :=
  run_induction_of_step (fun _ state => invariant state) initially
    (fun _ state action after _ holds taken => kept state action after holds taken) performed

/-- A fixed execution is performed by evaluating it with a test on its last state. -/
theorem exists_of_any {state : Option σ} {claim : σ → Prop} (test : σ → Bool)
    (passes : state.any test = true)
    (holds : ∀ s, state = some s → test s = true → claim s) : ∃ s, state = some s ∧ claim s := by
  rcases (Option.any_eq_true _ _).mp passes with ⟨s, performed, passed⟩
  exact ⟨s, performed, holds s performed passed⟩

theorem exists_with_of_any {β : Type*} {state : Option σ} {claim : σ → β → Prop}
    (test : σ → Bool) (passes : state.any test = true)
    (holds : ∀ s, state = some s → test s = true → ∃ b, claim s b) :
    ∃ s b, state = some s ∧ claim s b := by
  rcases exists_of_any test passes holds with ⟨s, performed, b, claimed⟩
  exact ⟨s, b, performed, claimed⟩

/-- An execution with a forbidden action ends in a bad state, if the first such
action leads to one and bad states persist. -/
theorem run_of_not_allowed (bad : σ → Prop) {start : σ}
    (breaks : ∀ past state action after, run step past start = some state →
      Allowed step allowed past start → ¬ allowed state action →
      step state action = some after → bad after)
    (persists : ∀ past state action after, run step past start = some state → bad state →
      step state action = some after → bad after)
    {actions : List α} {target : σ} (performed : run step actions start = some target)
    (forbidden : ¬ Allowed step allowed actions start) : bad target := by
  revert forbidden
  apply run_induction_of_step (fun past state => ¬ Allowed step allowed past start → bad state) _ _
    performed
  · exact fun impossible => absurd trivial impossible
  · intro past state action after reached ih stepped forbidden
    by_cases pastAllowed : Allowed step allowed past start
    · apply breaks past state action after reached pastAllowed _ stepped
      intro lastAllowed
      apply forbidden
      rw [allowed_append reached]
      exact ⟨pastAllowed, lastAllowed, fun _ _ => trivial⟩
    · exact persists past state action after reached (ih pastAllowed) stepped

end Blaze.Execution
