import Blaze.Lib.Execution

/-!
# Processes around a shared store

Processes, numbered without bound, act one at a time on a store they share and on
a state of their own.  An invariant is split into a part about the store and a
part each process claims about itself and the store: the acting process restores
both, and every other process only has to bear the change of the store.
-/

namespace Blaze.Interleaving

universe u v w

/-- The shared store and the state of every process. -/
structure State (σ : Type u) (π : Type v) where
  store : σ
  process : Nat → π

/-- One process does something. -/
structure Action (α : Type w) where
  worker : Nat
  act : α
  deriving DecidableEq, Repr

variable {σ : Type u} {π : Type v} {α : Type w}

/-- Replace the store and the state of one process. -/
def State.update (s : State σ π) (i : Nat) (store : σ) (process : π) : State σ π where
  store := store
  process := fun j => if j = i then process else s.process j

/-- The acting process takes a step of its own. -/
def step (processStep : Nat → σ → π → α → Option (σ × π)) (s : State σ π) (action : Action α) :
    Option (State σ π) :=
  (processStep action.worker s.store (s.process action.worker) action.act).map
    fun result => s.update action.worker result.1 result.2

/-- The store meets `shared`, and every process meets `own`. -/
structure Holds (shared : σ → Prop) (own : Nat → σ → π → Prop) (s : State σ π) : Prop where
  shared : shared s.store
  own : ∀ i, own i s.store (s.process i)

variable {processStep : Nat → σ → π → α → Option (σ × π)} {s t : State σ π} {action : Action α}

theorem step_eq_some_iff :
    step processStep s action = some t ↔ ∃ store process,
      processStep action.worker s.store (s.process action.worker) action.act =
        some (store, process) ∧ t = s.update action.worker store process := by
  unfold step
  rw [Option.map_eq_some_iff]
  constructor
  · rintro ⟨⟨store, process⟩, stepped, rfl⟩
    exact ⟨store, process, stepped, rfl⟩
  · rintro ⟨store, process, stepped, rfl⟩
    exact ⟨(store, process), stepped, rfl⟩

@[simp]
theorem update_store (i : Nat) (store : σ) (process : π) :
    (s.update i store process).store = store :=
  rfl

@[simp]
theorem update_process_self (i : Nat) (store : σ) (process : π) :
    (s.update i store process).process i = process := by
  simp [State.update]

theorem update_process_of_ne {i j : Nat} (store : σ) (process : π) (other : j ≠ i) :
    (s.update i store process).process j = s.process j := by
  simp [State.update, other]

theorem update_update (i : Nat) (store store' : σ) (process process' : π) :
    (s.update i store process).update i store' process' = s.update i store' process' := by
  simp only [State.update, State.mk.injEq, true_and]
  funext j
  split <;> rfl

theorem update_self {i : Nat} {process : π} (held : s.process i = process) :
    s.update i s.store process = s := by
  subst held
  obtain ⟨store, process⟩ := s
  simp only [State.update, State.mk.injEq, true_and]
  funext j
  split <;> simp_all

/-- The rule for one step: the acting process restores the invariant, and the
others bear the change of the store. -/
theorem Holds.step {shared shared' : σ → Prop} {own own' : Nat → σ → π → Prop}
    (holds : Holds shared own s) (stepped : step processStep s action = some t)
    (acting : ∀ store process,
      processStep action.worker s.store (s.process action.worker) action.act =
        some (store, process) → shared' store ∧ own' action.worker store process)
    (bearing : ∀ store process,
      processStep action.worker s.store (s.process action.worker) action.act =
        some (store, process) →
      ∀ j, j ≠ action.worker → own j s.store (s.process j) → own' j store (s.process j)) :
    Holds shared' own' t := by
  rcases step_eq_some_iff.mp stepped with ⟨store, process, taken, rfl⟩
  refine ⟨(acting store process taken).1, fun j => ?_⟩
  by_cases mine : j = action.worker
  · subst mine
    rw [update_process_self]
    exact (acting store process taken).2
  · rw [update_process_of_ne store process mine]
    exact bearing store process taken j mine (holds.own j)

end Blaze.Interleaving
