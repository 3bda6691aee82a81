import Mathlib.Data.List.Forall2

/-!
# Computations that may fail

What the steps of a computation that returned have returned, for one step after the
other and for a step on each item of a list.
-/

namespace Fallible

variable {ε α β : Type}

@[simp]
theorem ok_bind (item : α) (f : α → Except ε β) : (Except.ok item >>= f) = f item :=
  rfl

theorem bind_eq_ok_iff {first : Except ε α} {next : α → Except ε β} {result : β} :
    (first >>= next) = .ok result ↔ ∃ item, first = .ok item ∧ next item = .ok result := by
  cases first with
  | error fault =>
    constructor
    · intro impossible
      cases impossible
    · rintro ⟨item, impossible, -⟩
      cases impossible
  | ok item =>
    rw [ok_bind]
    constructor
    · exact fun reads => ⟨item, rfl, reads⟩
    · rintro ⟨other, same, reads⟩
      cases same
      exact reads

/-- In a monad where a computation returns when its parts do, a step on each item of a
list returns what it returns on each of them. -/
theorem mapM_eq_pure_iff {m : Type → Type} [Monad m] [LawfulMonad m]
    (injective : ∀ results others : List β, (pure results : m _) = pure others ↔ results = others)
    (returns : ∀ {γ : Type} (first : m γ) (next : γ → m (List β)) (results : List β),
      (first >>= next) = pure results ↔ ∃ item, first = pure item ∧ next item = pure results)
    {f : α → m β} {items : List α} {results : List β} :
    items.mapM f = pure results ↔
      List.Forall₂ (fun item result => f item = pure result) items results := by
  induction items generalizing results with
  | nil => rw [List.mapM_nil, List.forall₂_nil_left_iff, injective, eq_comm]
  | cons item items ih =>
    simp only [List.mapM_cons, returns, ih, injective, List.forall₂_cons_left_iff]
    constructor
    · rintro ⟨first, made, rest, others, rfl⟩
      exact ⟨first, rest, made, others, rfl⟩
    · rintro ⟨first, rest, made, others, rfl⟩
      exact ⟨first, made, rest, others, rfl⟩

theorem mapM_eq_some_iff {f : α → Option β} {items : List α} {results : List β} :
    items.mapM f = some results ↔
      List.Forall₂ (fun item result => f item = some result) items results :=
  mapM_eq_pure_iff (fun _ _ => Option.some_inj) fun _ _ _ => Option.bind_eq_some_iff

theorem mapM_eq_ok_iff {f : α → Except ε β} {items : List α} {results : List β} :
    items.mapM f = .ok results ↔
      List.Forall₂ (fun item result => f item = .ok result) items results :=
  mapM_eq_pure_iff (fun _ _ => ⟨Except.ok.inj, congrArg Except.ok⟩) fun _ _ _ => bind_eq_ok_iff

/-- Reads that all succeed give the list of what they read. -/
theorem mapM_eq_ok {f : α → Except ε β} {g : α → β} {items : List α}
    (reads : ∀ item ∈ items, f item = .ok (g item)) : items.mapM f = .ok (items.map g) := by
  induction items with
  | nil => rfl
  | cons item items ih =>
    rw [List.mapM_cons, reads item List.mem_cons_self,
      ih fun other member => reads other (List.mem_cons_of_mem _ member)]
    rfl

/-- Every result of a list of related pairs has an item it belongs to. -/
theorem exists_related {related : α → β → Prop} {items : List α} {results : List β}
    (pairs : List.Forall₂ related items results) {result : β} (member : result ∈ results) :
    ∃ item ∈ items, related item result := by
  induction pairs with
  | nil => cases member
  | @cons item _ _ _ here _ ih =>
    rcases List.mem_cons.mp member with rfl | later
    · exact ⟨item, List.mem_cons_self, here⟩
    · rcases ih later with ⟨found, inRest, belongs⟩
      exact ⟨found, List.mem_cons_of_mem _ inRest, belongs⟩

theorem exists_of_mem_mapM {f : α → Except ε β} {items : List α} {results : List β}
    (reads : items.mapM f = .ok results) {result : β} (member : result ∈ results) :
    ∃ item ∈ items, f item = .ok result :=
  exists_related (mapM_eq_ok_iff.mp reads) member

/-- Reads that find what they are looking for find all of it. -/
theorem exists_mapM_of_forall₂ {γ : Type} {f : α → Except ε β} {r : β → γ → Prop} {items : List α}
    {targets : List γ}
    (reads : List.Forall₂ (fun item target => ∃ result, f item = .ok result ∧ r result target)
      items targets) : ∃ results, items.mapM f = .ok results ∧ List.Forall₂ r results targets := by
  induction reads with
  | nil => exact ⟨[], rfl, .nil⟩
  | cons here _ ih =>
    obtain ⟨result, read, found⟩ := here
    obtain ⟨results, rest, all⟩ := ih
    rw [List.mapM_cons, read, rest]
    exact ⟨result :: results, rfl, .cons found all⟩

/-- Reads that all succeed give a list of the same length. -/
theorem exists_mapM {f : α → Except ε β} {items : List α}
    (reads : ∀ item ∈ items, ∃ result, f item = .ok result) :
    ∃ results, items.mapM f = .ok results ∧ results.length = items.length := by
  induction items with
  | nil => exact ⟨[], rfl, rfl⟩
  | cons item items ih =>
    obtain ⟨result, read⟩ := reads item List.mem_cons_self
    obtain ⟨results, rest, length⟩ :=
      ih fun other member => reads other (List.mem_cons_of_mem item member)
    rw [List.mapM_cons, read, rest]
    exact ⟨result :: results, rfl, congrArg Nat.succ length⟩

/-- Reads fail because one of them does. -/
theorem exists_error_of_mapM {f : α → Except ε β} {items : List α} {fault : ε}
    (fails : items.mapM f = .error fault) : ∃ item ∈ items, f item = .error fault := by
  induction items with
  | nil => cases fails
  | cons item items ih =>
    rw [List.mapM_cons] at fails
    cases read : f item with
    | error first =>
      rw [read] at fails
      cases fails
      exact ⟨item, List.mem_cons_self, read⟩
    | ok result =>
      cases rest : items.mapM f with
      | error first =>
        rw [read, rest] at fails
        cases fails
        obtain ⟨other, member, failed⟩ := ih rest
        exact ⟨other, List.mem_cons_of_mem item member, failed⟩
      | ok results =>
        rw [read, rest] at fails
        cases fails

/-- Reads of every index give the list that they read from. -/
theorem mapM_range_eq_ok {f : Nat → Except ε β} {items : List β}
    (reads : ∀ i item, items[i]? = some item → f i = .ok item) :
    (List.range items.length).mapM f = .ok items := by
  induction items generalizing f with
  | nil => rfl
  | cons item items ih =>
    have rest : (List.range items.length).mapM (f ∘ Nat.succ) = .ok items :=
      ih fun i other at_i => reads (i + 1) other at_i
    rw [List.length_cons, List.range_succ_eq_map, List.mapM_cons, reads 0 item rfl,
      List.mapM_map, rest]
    rfl

end Fallible
