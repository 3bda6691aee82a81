import Mathlib.Data.Set.Card

/-!
# A capped walk

Nodes reachable from some seeds are collected up to a cap, depth first, with a
bounded fetch of successors per node.  A fetch may be cut off only if its nodes
alone exceed the cap, so a walk that is not truncated has seen every successor of
every node it collected.
-/

namespace Blaze.CappedWalk

open List

variable {budget cap : Nat}

universe u

variable {α : Type u} [DecidableEq α]

/-- The nodes met so far, those collected, and whether one more was met than fits. -/
structure Walk (α : Type u) where
  cap : Nat
  seen : List α
  out : List α
  truncated : Bool

namespace Walk

def new (cap : Nat) : Walk α :=
  ⟨cap, [], [], false⟩

/-- Admit a node, and say whether it should be expanded in turn. -/
def admitNode (w : Walk α) (n : α) : Walk α × Bool :=
  if n ∈ w.seen then
    (w, false)
  else if w.out.length ≥ w.cap then
    ({ w with seen := n :: w.seen, truncated := true }, false)
  else
    ({ w with seen := n :: w.seen, out := w.out ++ [n] }, true)

/-- Admit nodes in turn and put the new ones on the frontier; stop at the cap. -/
def offer (w : Walk α) (frontier : List α) : List α → Walk α × List α
  | [] => (w, frontier)
  | n :: ns =>
      let (w, fresh) := w.admitNode n
      let frontier := if fresh then n :: frontier else frontier
      if w.truncated then (w, frontier) else w.offer frontier ns

/-- Expand the frontier, newest node first, with `budget` successors fetched at a
time.  A node enters the frontier when it is collected, so the cap bounds the
rounds. -/
def drain (fetch : α → Nat → List α) (budget : Nat) : Nat → Walk α → List α → Walk α
  | 0, w, _ => w
  | _ + 1, w, [] => w
  | fuel + 1, w, k :: frontier =>
      let (w, frontier) := w.offer frontier (fetch k budget)
      if w.truncated then w else drain fetch budget fuel w frontier

/-- Walk from the seeds. -/
def expand (w : Walk α) (budget : Nat) (seeds : List α) (fetch : α → Nat → List α) : Walk α :=
  let (w, frontier) := w.offer [] seeds
  if w.truncated then w else drain fetch budget w.cap w frontier

/-- Expand the frontier until it is empty or the walk is full; there is no result when
that takes more rounds than given. -/
def drainWithin (fetch : α → Nat → List α) (budget : Nat) :
    Nat → Walk α → List α → Option (Walk α)
  | _, w, [] => some w
  | 0, _, _ :: _ => none
  | rounds + 1, w, k :: frontier =>
      let (w, frontier) := w.offer frontier (fetch k budget)
      if w.truncated then some w else drainWithin fetch budget rounds w frontier

/-- Walk from the seeds, within a number of rounds. -/
def expandWithin (rounds : Nat) (w : Walk α) (budget : Nat) (seeds : List α)
    (fetch : α → Nat → List α) : Option (Walk α) :=
  let (w, frontier) := w.offer [] seeds
  if w.truncated then some w else drainWithin fetch budget rounds w frontier

end Walk

/-- What can be reached from the seeds. -/
def Reaches (next : α → List α) (seeds : List α) (x : α) : Prop :=
  ∃ s ∈ seeds, Relation.ReflTransGen (fun a b => b ∈ next a) s x

omit [DecidableEq α] in
/-- A set that holds the seeds and is closed holds everything in reach. -/
theorem Reaches.induct {next : α → List α} {seeds : List α} {P : α → Prop}
    (start : ∀ s ∈ seeds, P s) (step : ∀ a, P a → ∀ b ∈ next a, P b) {x : α}
    (reaches : Reaches next seeds x) : P x := by
  obtain ⟨s, seed, path⟩ := reaches
  induction path with
  | refl => exact start s seed
  | tail _ edge ih => exact step _ ih _ edge

omit [DecidableEq α] in
theorem Reaches.tail {next : α → List α} {seeds : List α} {a b : α}
    (reaches : Reaches next seeds a) (edge : b ∈ next a) : Reaches next seeds b := by
  obtain ⟨s, seed, path⟩ := reaches
  exact ⟨s, seed, path.tail edge⟩

/-! ## One round -/

/-- The walk has not met more than fits. -/
structure Open (w : Walk α) : Prop where
  running : w.truncated = false
  distinct : w.out.Nodup
  fits : w.out.length ≤ w.cap
  seen : ∀ x, x ∈ w.seen ↔ x ∈ w.out

/-- The walk holds as many nodes as fit, and there is another one. -/
structure Full (good : α → Prop) (cap : Nat) (w : Walk α) : Prop where
  truncated : w.truncated = true
  distinct : w.out.Nodup
  full : w.out.length = cap
  collected : ∀ x ∈ w.out, good x
  more : ∃ y, good y ∧ y ∉ w.out

/-- The nodes are collected, and the new ones are on the frontier. -/
structure Collects (ns : List α) (w : Walk α) (frontier : List α) (w' : Walk α)
    (frontier' : List α) : Prop where
  cap : w'.cap = w.cap
  out : ∀ x, x ∈ w'.out ↔ x ∈ w.out ∨ x ∈ ns
  queue : ∀ x, x ∈ frontier' ↔ x ∈ frontier ∨ x ∈ ns ∧ x ∉ w.out
  balance : w'.out.length + frontier.length = w.out.length + frontier'.length

omit [DecidableEq α] in
theorem Collects.nil (w : Walk α) (frontier : List α) : Collects [] w frontier w frontier :=
  ⟨rfl, by simp, by simp, rfl⟩

/-- Offering nodes to an open walk collects them all or fills it. -/
theorem offer_spec {good : α → Prop} {w : Walk α} (isOpen : Open w)
    (collected : ∀ x ∈ w.out, good x) {ns : List α} (offered : ∀ n ∈ ns, good n)
    (frontier : List α) :
    Full good w.cap (w.offer frontier ns).1 ∨
      Open (w.offer frontier ns).1 ∧
        Collects ns w frontier (w.offer frontier ns).1 (w.offer frontier ns).2 := by
  induction ns generalizing w frontier with
  | nil => exact Or.inr ⟨isOpen, .nil w frontier⟩
  | cons n ns ih =>
    have later : ∀ m ∈ ns, good m := fun m member => offered m (mem_cons_of_mem n member)
    by_cases old : n ∈ w.seen
    · have known : n ∈ w.out := (isOpen.seen n).mp old
      have skipped : w.offer frontier (n :: ns) = w.offer frontier ns := by
        simp [Walk.offer, Walk.admitNode, old, isOpen.running]
      rw [skipped]
      rcases ih isOpen collected later frontier with full | ⟨isOpen', collects⟩
      · exact Or.inl full
      · refine Or.inr ⟨isOpen', collects.cap, fun x => ?_, fun x => ?_, collects.balance⟩
        · rw [collects.out, mem_cons]
          grind
        · rw [collects.queue, mem_cons]
          grind
    · have fresh : n ∉ w.out := fun member => old ((isOpen.seen n).mpr member)
      by_cases room : w.out.length ≥ w.cap
      · have stopped : (w.offer frontier (n :: ns)).1 =
            { w with seen := n :: w.seen, truncated := true } := by
          simp [Walk.offer, Walk.admitNode, old, room]
        rw [stopped]
        exact Or.inl ⟨rfl, isOpen.distinct, le_antisymm isOpen.fits room, collected,
          n, offered n mem_cons_self, fresh⟩
      · have taken : w.offer frontier (n :: ns) =
            Walk.offer { w with seen := n :: w.seen, out := w.out ++ [n] } (n :: frontier)
              ns := by
          simp [Walk.offer, Walk.admitNode, old, room, isOpen.running]
        have isOpen' : Open { w with seen := n :: w.seen, out := w.out ++ [n] } := by
          refine ⟨isOpen.running, ?_, ?_, fun x => ?_⟩
          · exact nodup_append'.mpr ⟨isOpen.distinct, nodup_singleton n, by simpa⟩
          · rw [length_append]
            exact Nat.lt_of_not_le room
          · rw [mem_cons, mem_append, mem_singleton, isOpen.seen, or_comm]
        have collected' : ∀ x ∈ w.out ++ [n], good x := by
          intro x member
          rcases mem_append.mp member with before | here
          · exact collected x before
          · rw [mem_singleton.mp here]
            exact offered n mem_cons_self
        rw [taken]
        rcases ih isOpen' collected' later (n :: frontier) with
          full | ⟨open'', collects⟩
        · exact Or.inl full
        · refine Or.inr ⟨open'', collects.cap, fun x => ?_, fun x => ?_, ?_⟩
          · rw [collects.out]
            grind
          · rw [collects.queue]
            grind
          · have balance := collects.balance
            simp only [length_append, length_cons, length_nil] at balance
            omega

/-! ## All rounds -/

/-- What a walk keeps between rounds: what is collected and not on the frontier has
its successors collected. -/
structure Progress (next : α → List α) (good : α → Prop) (w : Walk α) (frontier : List α) :
    Prop where
  isOpen : Open w
  collected : ∀ x ∈ w.out, good x
  queued : ∀ x ∈ frontier, x ∈ w.out
  expanded : ∀ x ∈ w.out, x ∉ frontier → ∀ c ∈ next x, c ∈ w.out

/-- How many rounds there can be. -/
def Walk.left (w : Walk α) (frontier : List α) : Nat :=
  w.cap - w.out.length + frontier.length

omit [DecidableEq α] in
/-- What is offered moves from the room to the frontier. -/
theorem Collects.left_eq {ns : List α} {w w' : Walk α} {frontier frontier' : List α}
    (collects : Collects ns w frontier w' frontier') (isOpen : Open w) (isOpen' : Open w') :
    w'.left frontier' = w.left frontier := by
  have fits := isOpen.fits
  have fits' := isOpen'.fits
  have balance := collects.balance
  rw [collects.cap] at fits'
  unfold Walk.left
  rw [collects.cap]
  omega

/-- A walk ends by itself, whatever is fetched and however little: the rounds that are
left suffice. -/
theorem Open.drainWithin_eq {fetch : α → Nat → List α} {rounds fuel : Nat} {w : Walk α}
    {frontier : List α} (isOpen : Open w) (enough : w.left frontier ≤ rounds)
    (fuelled : w.left frontier ≤ fuel) :
    w.drainWithin fetch budget rounds frontier = some (w.drain fetch budget fuel frontier) := by
  induction rounds generalizing w frontier fuel with
  | zero =>
    have empty : frontier = [] := by
      unfold Walk.left at enough
      rw [← length_eq_zero_iff]
      omega
    subst empty
    cases fuel <;> rfl
  | succ rounds ih =>
    cases frontier with
    | nil => cases fuel <;> rfl
    | cons k frontier =>
      unfold Walk.left at enough fuelled
      rw [length_cons] at enough fuelled
      cases fuel with
      | zero => omega
      | succ fuel =>
        have spec := @offer_spec _ _ (fun _ => True) _ isOpen (fun _ _ => trivial)
          (fetch k budget) (fun _ _ => trivial) frontier
        simp only [Walk.drainWithin, Walk.drain]
        generalize w.offer frontier (fetch k budget) = round at spec
        rcases spec with full | ⟨isOpen', collects⟩
        · rw [if_pos full.truncated, if_pos full.truncated]
        · have running : ¬ round.1.truncated = true := by simp [isOpen'.running]
          have left : round.1.left round.2 = w.cap - w.out.length + frontier.length :=
            collects.left_eq isOpen isOpen'
          rw [if_neg running, if_neg running]
          exact ih isOpen' (by omega) (by omega)

section Rounds

variable {next : α → List α} (distinct : ∀ k, (next k).Nodup) {good : α → Prop}
  (step : ∀ a, good a → ∀ b ∈ next a, good b)

omit [DecidableEq α] in
include distinct in
/-- A round that leaves the walk open has offered all successors: those it fetched
fit below the budget, so the fetch was not cut off. -/
theorem Collects.whole {w w' : Walk α} {k : α} {frontier frontier' : List α}
    (enough : w.cap < budget) (isOpen : Open w')
    (collects : Collects ((next k).take budget) w frontier w' frontier') :
    (next k).take budget = next k := by
  have fetched : ((next k).take budget).Nodup := (distinct k).sublist (take_sublist _ _)
  have inside : (next k).take budget ⊆ w'.out := fun x member =>
    (collects.out x).mpr (Or.inr member)
  have fits := (fetched.subperm inside).length_le.trans isOpen.fits
  rw [collects.cap, length_take] at fits
  rw [take_eq_self_iff]
  omega

include distinct step

/-- One round. -/
theorem Progress.round {w : Walk α} {k : α} {frontier : List α} (enough : w.cap < budget)
    (progress : Progress next good w (k :: frontier)) :
    let round := w.offer frontier ((next k).take budget)
    Full good w.cap round.1 ∨
      Progress next good round.1 round.2 ∧ Collects (next k) w frontier round.1 round.2 := by
  have inside : k ∈ w.out := progress.queued k mem_cons_self
  have offered : ∀ c ∈ (next k).take budget, good c := fun c member =>
    step k (progress.collected k inside) c (mem_of_mem_take member)
  have spec := offer_spec progress.isOpen progress.collected offered frontier
  dsimp only
  generalize w.offer frontier ((next k).take budget) = round at spec
  rcases spec with full | ⟨isOpen, collects⟩
  · exact Or.inl full
  · have whole := collects.whole distinct enough isOpen
    rw [whole] at collects offered
    refine Or.inr ⟨⟨isOpen, ?_, ?_, ?_⟩, collects⟩
    · intro x member
      exact ((collects.out x).mp member).elim (progress.collected x) (offered x)
    · intro x waiting
      apply (collects.out x).mpr
      rcases (collects.queue x).mp waiting with before | ⟨child, -⟩
      · exact Or.inl (progress.queued x (mem_cons_of_mem k before))
      · exact Or.inr child
    · intro x member unqueued c child
      rw [collects.queue, not_or, not_and_not_right] at unqueued
      apply (collects.out c).mpr
      by_cases same : x = k
      · exact Or.inr (same ▸ child)
      · have here : x ∈ w.out := ((collects.out x).mp member).elim id unqueued.2
        refine Or.inl (progress.expanded x here ?_ c child)
        rw [mem_cons, not_or]
        exact ⟨same, unqueued.1⟩

/-- Draining the frontier ends with a closed set or fills the walk. -/
theorem Progress.drain {fuel : Nat} {w : Walk α} {frontier : List α} (enough : w.cap < budget)
    (progress : Progress next good w frontier) (left : w.left frontier ≤ fuel) :
    let result := Walk.drain (fun k limit => (next k).take limit) budget fuel w frontier
    Full good w.cap result ∨
      Progress next good result [] ∧ result.cap = w.cap ∧ ∀ x ∈ w.out, x ∈ result.out := by
  induction fuel generalizing w frontier with
  | zero =>
    have empty : frontier = [] := by
      unfold Walk.left at left
      rw [← length_eq_zero_iff]
      omega
    subst empty
    exact Or.inr ⟨progress, rfl, fun _ member => member⟩
  | succ fuel ih =>
    cases frontier with
    | nil => exact Or.inr ⟨progress, rfl, fun _ member => member⟩
    | cons k frontier =>
      have spec := progress.round distinct step enough
      dsimp only [Walk.drain] at spec ⊢
      generalize w.offer frontier ((next k).take budget) = round at spec
      rcases spec with full | ⟨further, collects⟩
      · rw [if_pos full.truncated]
        exact Or.inl full
      · rw [if_neg (by simp [further.isOpen.running])]
        have smaller : round.1.left round.2 ≤ fuel := by
          rw [collects.left_eq progress.isOpen further.isOpen]
          exact Nat.le_of_succ_le_succ left
        have rest := ih (by rw [collects.cap]; exact enough) further smaller
        rw [collects.cap] at rest
        rcases rest with full | ⟨done, capEq, kept⟩
        · exact Or.inl full
        · exact Or.inr ⟨done, capEq, fun x member =>
            kept x ((collects.out x).mpr (Or.inl member))⟩

end Rounds

omit [DecidableEq α] in
theorem open_new (cap : Nat) : Open (Walk.new cap : Walk α) :=
  ⟨rfl, nodup_nil, Nat.zero_le cap, fun _ => Iff.rfl⟩

/-- A walk collects exactly what is in reach, or it is truncated with as many nodes
in reach as fit. -/
theorem expand_spec {next : α → List α} (distinct : ∀ k, (next k).Nodup) (enough : cap < budget)
    (seeds : List α) :
    let result := (Walk.new cap).expand budget seeds fun k limit => (next k).take limit
    Full (Reaches next seeds) cap result ∨
      Open result ∧ result.cap = cap ∧ ∀ x, x ∈ result.out ↔ Reaches next seeds x := by
  have seed : ∀ s ∈ seeds, Reaches next seeds s := fun s member => ⟨s, member, .refl⟩
  have spec := offer_spec (open_new cap) (by simp [Walk.new]) seed []
  dsimp only [Walk.expand]
  generalize (Walk.new cap).offer [] seeds = started at spec
  rcases spec with full | ⟨isOpen, collects⟩
  · rw [if_pos full.truncated]
    exact Or.inl full
  · rw [if_neg (by simp [isOpen.running])]
    have out : ∀ x, x ∈ started.1.out ↔ x ∈ seeds := by
      intro x
      rw [collects.out]
      simp [Walk.new]
    have queue : ∀ x, x ∈ started.2 ↔ x ∈ seeds := by
      intro x
      rw [collects.queue]
      simp [Walk.new]
    have progress : Progress next (Reaches next seeds) started.1 started.2 := by
      refine ⟨isOpen, ?_, ?_, ?_⟩
      · intro x member
        exact seed x ((out x).mp member)
      · intro x waiting
        exact (out x).mpr ((queue x).mp waiting)
      · intro x member unqueued
        exact absurd ((queue x).mpr ((out x).mp member)) unqueued
    have rounds : started.1.left started.2 ≤ started.1.cap := by
      rw [collects.left_eq (open_new cap) isOpen, collects.cap]
      exact le_refl cap
    have done := progress.drain distinct (fun a reached b edge => reached.tail edge)
      (by rw [collects.cap]; exact enough) rounds
    rw [collects.cap] at done ⊢
    rcases done with full | ⟨final, capEq, kept⟩
    · exact Or.inl full
    · refine Or.inr ⟨final.isOpen, capEq, fun x => ⟨final.collected x, fun reached => ?_⟩⟩
      apply reached.induct
      · intro s member
        exact kept s ((out s).mpr member)
      · intro a member
        exact final.expanded a member (by simp)

/-- A walk that fetches nothing stays as it is. -/
theorem drain_of_fetch_nil {fetch : α → Nat → List α} (nothing : ∀ k, fetch k budget = [])
    (fuel : Nat) {w : Walk α} (running : w.truncated = false) (frontier : List α) :
    w.drain fetch budget fuel frontier = w := by
  induction fuel generalizing frontier with
  | zero => rfl
  | succ fuel ih =>
    cases frontier with
    | nil => rfl
    | cons k frontier =>
      simp only [Walk.drain, nothing k, Walk.offer, running]
      exact ih frontier

/-- A walk that fetches nothing ends with the seeds, if they fit. -/
theorem expand_of_fetch_nil {fetch : α → Nat → List α} (nothing : ∀ k, fetch k budget = [])
    {seeds : List α} (fits : seeds.length ≤ cap) :
    let result := (Walk.new cap).expand budget seeds fetch
    Open result ∧ result.cap = cap ∧ ∀ x, x ∈ result.out ↔ x ∈ seeds := by
  have spec := @offer_spec α _ (· ∈ seeds) _ (open_new cap) (by simp [Walk.new]) seeds
    (fun _ member => member) []
  dsimp only [Walk.expand]
  generalize (Walk.new cap).offer [] seeds = started at spec
  rcases spec with full | ⟨isOpen, collects⟩
  · -- as many seeds as fit and another one are more than there are
    obtain ⟨y, seed, other⟩ := full.more
    have inside : y :: started.1.out ⊆ seeds := cons_subset.mpr ⟨seed, full.collected⟩
    have long := ((nodup_cons.mpr ⟨other, full.distinct⟩).subperm inside).length_le
    rw [length_cons, full.full] at long
    exact absurd (long.trans fits) (Nat.not_succ_le_self cap)
  · rw [if_neg (by simp [isOpen.running]), drain_of_fetch_nil nothing _ isOpen.running]
    refine ⟨isOpen, collects.cap, fun x => ?_⟩
    rw [collects.out]
    simp [Walk.new]

/-- A fresh walk ends within as many rounds as its cap has nodes. -/
theorem expandWithin_eq {rounds : Nat} (enough : cap ≤ rounds) (budget : Nat) (seeds : List α)
    (fetch : α → Nat → List α) :
    (Walk.new cap).expandWithin rounds budget seeds fetch =
      some ((Walk.new cap).expand budget seeds fetch) := by
  have spec := @offer_spec _ _ (fun _ => True) _ (open_new cap) (fun _ _ => trivial)
    seeds (fun _ _ => trivial) []
  simp only [Walk.expandWithin, Walk.expand]
  generalize (Walk.new cap).offer [] seeds = started at spec
  rcases spec with full | ⟨isOpen, collects⟩
  · rw [if_pos full.truncated, if_pos full.truncated]
  · have running : ¬ started.1.truncated = true := by simp [isOpen.running]
    have left : started.1.left started.2 = cap := collects.left_eq (open_new cap) isOpen
    have capEq : started.1.cap = cap := collects.cap
    rw [if_neg running, if_neg running]
    exact isOpen.drainWithin_eq (left.trans_le enough) (left.trans capEq.symm).le

/-! ## What a walk answers -/

/-- The nodes are all of a set that fits, or as many as fit of a larger one. -/
structure Answers (R : Set α) (cap : Nat) (truncated : Bool) (out : List α) : Prop where
  distinct : out.Nodup
  inside : ∀ x ∈ out, x ∈ R
  fits : R.encard ≤ cap → truncated = false ∧ ∀ x ∈ R, x ∈ out
  exceeds : ¬ R.encard ≤ cap → truncated = true ∧ out.length = cap

omit [DecidableEq α] in
theorem encard_of_nodup {out : List α} (distinct : out.Nodup) :
    {x | x ∈ out}.encard = out.length := by
  classical
  have same : {x | x ∈ out} = (out.toFinset : Set α) := by simp
  rw [same, Set.encard_coe_eq_coe_finsetCard, toFinset_card_of_nodup distinct]

omit [DecidableEq α] in
/-- A set with more than `cap` nodes in a list of distinct ones does not fit. -/
theorem not_encard_le {R : Set α} {out : List α} (distinct : out.Nodup) (inside : ∀ x ∈ out, x ∈ R)
    (long : cap < out.length) : ¬ R.encard ≤ cap := by
  intro small
  have subset : {x | x ∈ out} ⊆ R := inside
  have counted := (Set.encard_le_encard subset).trans small
  rw [encard_of_nodup distinct] at counted
  exact absurd (Nat.cast_le.mp counted) (Nat.not_le.mpr long)

omit [DecidableEq α] in
theorem Full.answers {R : Set α} {w : Walk α} (full : Full (· ∈ R) cap w) :
    Answers R cap w.truncated w.out := by
  obtain ⟨y, inR, other⟩ := full.more
  have larger : ¬ R.encard ≤ cap := by
    apply not_encard_le (nodup_cons.mpr ⟨other, full.distinct⟩)
    · intro x member
      rcases mem_cons.mp member with rfl | collected
      · exact inR
      · exact full.collected x collected
    · rw [length_cons, full.full]
      exact Nat.lt_succ_self cap
  exact ⟨full.distinct, full.collected, fun small => absurd small larger,
    fun _ => ⟨full.truncated, full.full⟩⟩

omit [DecidableEq α] in
theorem Open.answers {R : Set α} {w : Walk α} (isOpen : Open w) (out : ∀ x, x ∈ w.out ↔ x ∈ R) :
    Answers R w.cap w.truncated w.out := by
  have counted : R.encard ≤ w.cap := by
    have same : R = {x | x ∈ w.out} := by
      ext x
      exact (out x).symm
    rw [same, encard_of_nodup isOpen.distinct]
    exact Nat.cast_le.mpr isOpen.fits
  exact ⟨isOpen.distinct, fun x => (out x).mp, fun _ => ⟨isOpen.running, fun x => (out x).mpr⟩,
    fun larger => absurd counted larger⟩

theorem expand_answers {next : α → List α} (distinct : ∀ k, (next k).Nodup) (enough : cap < budget)
    (seeds : List α) :
    let result := (Walk.new cap).expand budget seeds fun k limit => (next k).take limit
    Answers {x | Reaches next seeds x} cap result.truncated result.out := by
  intro result
  rcases expand_spec distinct enough seeds with full | ⟨isOpen, capEq, out⟩
  · exact full.answers
  · have answers := isOpen.answers (R := {x | Reaches next seeds x}) out
    rw [capEq] at answers
    exact answers

/-- A second walk starts from what a first one found.  The first may hold one node
more, so if it is truncated its nodes alone truncate the second. -/
theorem expand_expand_answers {lead next : α → List α} (distinctLead : ∀ k, (lead k).Nodup)
    (distinct : ∀ k, (next k).Nodup) {budget' : Nat} (enough : cap + 1 < budget)
    (enough' : cap < budget') {seeds : List α} {R : Set α}
    (found : ∀ x, Reaches lead seeds x → x ∈ R) (closed : ∀ a ∈ R, ∀ b ∈ next a, b ∈ R)
    (covered : ∀ x ∈ R, ∃ g, Reaches lead seeds g ∧
      Relation.ReflTransGen (fun a b => b ∈ next a) g x) :
    let first := (Walk.new (cap + 1)).expand budget seeds fun k limit => (lead k).take limit
    let result := (Walk.new cap).expand budget' first.out fun k limit => (next k).take limit
    Answers R cap result.truncated result.out := by
  intro first result
  have answers := expand_answers distinct enough' first.out
  have spec := expand_spec distinctLead enough seeds
  change Full (Reaches lead seeds) (cap + 1) first ∨
    Open first ∧ first.cap = cap + 1 ∧ ∀ x, x ∈ first.out ↔ Reaches lead seeds x at spec
  have inside : ∀ x, Reaches next first.out x → x ∈ R := by
    intro x reaches
    apply reaches.induct
    · intro s member
      rcases spec with full | ⟨-, -, out⟩
      · exact found s (full.collected s member)
      · exact found s ((out s).mp member)
    · exact closed
  rcases spec with full | ⟨-, -, out⟩
  · have long : cap < first.out.length := by
      rw [full.full]
      exact Nat.lt_succ_self cap
    have larger : ¬ R.encard ≤ cap := not_encard_le full.distinct
      (fun x member => found x (full.collected x member)) long
    have exceeds := answers.exceeds
      (not_encard_le full.distinct (fun x member => ⟨x, member, .refl⟩) long)
    exact ⟨answers.distinct, fun x member => inside x (answers.inside x member),
      fun small => absurd small larger, fun _ => exceeds⟩
  · have same : {x | Reaches next first.out x} = R := by
      ext x
      refine ⟨inside x, fun inR => ?_⟩
      obtain ⟨g, reaches, path⟩ := covered x inR
      exact ⟨g, (out g).mpr reaches, path⟩
    rw [same] at answers
    exact answers

end Blaze.CappedWalk
