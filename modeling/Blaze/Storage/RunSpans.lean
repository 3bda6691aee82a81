import Blaze.Storage.Catalog

/-!
# Run sets as partitions

`run_set` sorts the runs of a snapshot and compares neighbours.  What it accepts is
a partition: every sequence from the oldest one covered up to the snapshot's own is
covered by exactly one run.
-/

namespace Blaze

open List

variable {runs : List RunMeta} {last : Nat} {run : RunMeta} {snapshot : SnapshotMeta}

namespace RunMeta

/-- The sequence lies in the span of the run. -/
def Covers (run : RunMeta) (sequence : Nat) : Prop :=
  run.minSequence ≤ sequence ∧ sequence ≤ run.maxSequence

instance (run : RunMeta) (sequence : Nat) : Decidable (run.Covers sequence) :=
  inferInstanceAs (Decidable (_ ∧ _))

end RunMeta

/-- How many runs cover the sequence. -/
def coverage (runs : List RunMeta) (sequence : Nat) : Nat :=
  runs.countP fun run => run.Covers sequence

theorem coverage_cons (run : RunMeta) (runs : List RunMeta) (sequence : Nat) :
    coverage (run :: runs) sequence =
      coverage runs sequence + if run.Covers sequence then 1 else 0 := by
  unfold coverage
  rw [countP_cons]
  simp

/-- The spans are non-empty and stop at `last`, and every sequence from `first` up to
it is covered once. -/
structure Tiles (runs : List RunMeta) (first last : Nat) : Prop where
  forwards : ∀ run ∈ runs, run.minSequence ≤ run.maxSequence
  within : ∀ run ∈ runs, run.maxSequence ≤ last
  once : ∀ sequence, first ≤ sequence → sequence ≤ last → coverage runs sequence = 1

theorem Tiles.perm {stored : List RunMeta} {first : Nat} (tiles : Tiles runs first last)
    (same : runs.Perm stored) : Tiles stored first last where
  forwards run member := tiles.forwards run (same.mem_iff.mpr member)
  within run member := tiles.within run (same.mem_iff.mpr member)
  once sequence low high := by
    rw [coverage, ← same.countP_eq]
    exact tiles.once sequence low high

/-! ## Neighbours -/

theorem coverage_of_below {sequence : Nat} (below : ∀ run ∈ runs, sequence < run.minSequence) :
    coverage runs sequence = 0 := by
  rw [coverage, countP_eq_zero]
  intro run member covered
  have covers : run.Covers sequence := by simpa using covered
  exact absurd (below run member) (not_lt.mpr covers.1)

/-- Runs that follow one another cover each sequence once. -/
theorem Contiguous.tiles (contiguous : Contiguous (run :: runs))
    (ends : EndsAt (run :: runs) last) :
    Tiles (run :: runs) run.minSequence last := by
  induction runs generalizing run with
  | nil =>
    have reaches : run.maxSequence = last := ends run rfl
    refine ⟨contiguous.forwards, ?_, ?_⟩
    · intro other member
      rw [mem_singleton.mp member]
      exact reaches.le
    · intro sequence low high
      rw [coverage_cons, if_pos ⟨low, high.trans reaches.ge⟩]
      rfl
  | cons next runs ih =>
    obtain ⟨adjacent, chain⟩ := isChain_cons_cons.mp contiguous.adjacent
    have here := contiguous.forwards run mem_cons_self
    have rest : Contiguous (next :: runs) :=
      ⟨fun other member => contiguous.forwards other (mem_cons_of_mem run member), chain⟩
    have tiles := ih rest (by simpa [EndsAt] using ends)
    have above := pairwise_cons.mp contiguous.strictlyAscending
    have reach := tiles.within next mem_cons_self
    have forwards := rest.forwards next mem_cons_self
    refine ⟨contiguous.forwards, ?_, ?_⟩
    · intro other member
      rcases mem_cons.mp member with rfl | member
      · omega
      · exact tiles.within other member
    · intro sequence low high
      rw [coverage_cons]
      by_cases inside : sequence ≤ run.maxSequence
      · have none : coverage (next :: runs) sequence = 0 := by
          apply coverage_of_below
          intro other member
          rcases mem_cons.mp member with rfl | member
          · omega
          · have later := (pairwise_cons.mp rest.strictlyAscending).1 other member
            omega
        rw [none, if_pos ⟨low, inside⟩]
      · rw [tiles.once sequence (by omega) high, if_neg fun covers => inside covers.2]

/-- Sorted runs that cover each sequence once follow one another. -/
theorem Tiles.contiguous (tiles : Tiles (run :: runs) run.minSequence last)
    (sorted : (run :: runs).Pairwise fun first second => first.minSequence ≤ second.minSequence) :
    Contiguous (run :: runs) ∧ EndsAt (run :: runs) last := by
  induction runs generalizing run with
  | nil =>
    have here := tiles.forwards run mem_cons_self
    have inside := tiles.within run mem_cons_self
    have covered := tiles.once last (here.trans inside) le_rfl
    rw [coverage_cons] at covered
    refine ⟨⟨tiles.forwards, List.IsChain.singleton run⟩, ?_⟩
    rintro newest ⟨rfl⟩
    split at covered
    · next covers => exact le_antisymm inside covers.2
    · cases covered
  | cons next runs ih =>
    obtain ⟨later, sorted⟩ := pairwise_cons.mp sorted
    have here := tiles.forwards run mem_cons_self
    have there := tiles.forwards next (mem_cons_of_mem run mem_cons_self)
    have inside := tiles.within next (mem_cons_of_mem run mem_cons_self)
    have order := later next mem_cons_self
    -- the next span starts above this one, or both would cover its start
    have apart : run.maxSequence < next.minSequence := by
      by_contra overlap
      have covered := tiles.once next.minSequence order (there.trans inside)
      rw [coverage_cons, coverage_cons, if_pos ⟨le_rfl, there⟩,
        if_pos ⟨order, not_lt.mp overlap⟩] at covered
      omega
    have rest : Tiles (next :: runs) next.minSequence last := by
      refine ⟨fun other member => tiles.forwards other (mem_cons_of_mem run member),
        fun other member => tiles.within other (mem_cons_of_mem run member), ?_⟩
      intro sequence low high
      have covered := tiles.once sequence (order.trans low) high
      rwa [coverage_cons, if_neg fun covers => absurd (covers.2.trans_lt apart) (not_lt.mpr low)]
        at covered
    -- the sequence after this span belongs to a run that starts no later
    have adjacent : run.maxSequence + 1 = next.minSequence := by
      apply le_antisymm apart
      by_contra gap
      have covered := tiles.once (run.maxSequence + 1) (by omega) (by omega)
      rw [coverage_cons, if_neg fun covers => absurd covers.2 (by omega),
        coverage_of_below fun other member => ?_] at covered
      · cases covered
      · rcases mem_cons.mp member with rfl | member
        · omega
        · have beyond := (pairwise_cons.mp sorted).1 other member
          omega
    obtain ⟨contiguous, ends⟩ := ih rest sorted
    refine ⟨⟨tiles.forwards, isChain_cons_cons.mpr ⟨adjacent, contiguous.adjacent⟩⟩, ?_⟩
    simpa [EndsAt] using ends

/-- Two runs of a contiguous set that start together are the same run. -/
theorem Contiguous.eq_of_minSequence (contiguous : Contiguous runs) {other : RunMeta}
    (member : run ∈ runs) (there : other ∈ runs) (starts : run.minSequence = other.minSequence) :
    run = other := by
  have distinct : (runs.map RunMeta.minSequence).Nodup := by
    rw [List.Nodup, pairwise_map]
    exact contiguous.strictlyAscending.imp fun before => before.ne
  exact inj_on_of_nodup_map distinct member there starts

/-! ## What `run_set` accepts -/

namespace SnapshotMeta

/-- The runs of the snapshot split the sequences from their smallest start up to the
snapshot's own: each of them lies in exactly one span. -/
def Partitioned (snapshot : SnapshotMeta) : Prop :=
  snapshot.runs ≠ [] ∧
    ∀ oldest ∈ snapshot.runs, (∀ run ∈ snapshot.runs, oldest.minSequence ≤ run.minSequence) →
      Tiles snapshot.runs oldest.minSequence snapshot.sequence

/-- The order the runs are stored in does not show in what is assembled. -/
theorem runSet_of_perm (same : runs.Perm snapshot.runs) (nonempty : runs ≠ [])
    (contiguous : Contiguous runs) (ends : EndsAt runs snapshot.sequence) :
    snapshot.runSet = .ok (.runs runs) := by
  have sorted : snapshot.runs.insertionSort (fun a b => a.minSequence ≤ b.minSequence) = runs := by
    have transitive : IsTrans RunMeta fun a b => a.minSequence ≤ b.minSequence :=
      ⟨fun _ _ _ => le_trans⟩
    have total : Std.Total fun (a b : RunMeta) => a.minSequence ≤ b.minSequence :=
      ⟨fun _ _ => le_total _ _⟩
    have perm := (perm_insertionSort (fun a b => a.minSequence ≤ b.minSequence)
      snapshot.runs).trans same.symm
    apply perm.eq_of_pairwise ?_ (pairwise_insertionSort _ _) contiguous.ascending
    intro run other member there low high
    exact contiguous.eq_of_minSequence (perm.mem_iff.mp member) there (le_antisymm low high)
  apply runSet_of_sorted sorted ?_ contiguous ends
  intro empty
  rw [empty] at same
  exact nonempty same.eq_nil

/-- Runs that partition the sequences are accepted. -/
theorem Partitioned.runSet (partitioned : snapshot.Partitioned) :
    ∃ runs, snapshot.runSet = .ok (.runs runs) := by
  obtain ⟨nonempty, tiles⟩ := partitioned
  have same := perm_insertionSort (fun a b => a.minSequence ≤ b.minSequence) snapshot.runs
  have transitive : IsTrans RunMeta fun a b => a.minSequence ≤ b.minSequence :=
    ⟨fun _ _ _ => le_trans⟩
  have total : Std.Total fun (a b : RunMeta) => a.minSequence ≤ b.minSequence :=
    ⟨fun _ _ => le_total _ _⟩
  have sorted := pairwise_insertionSort (fun a b => a.minSequence ≤ b.minSequence)
    snapshot.runs
  generalize snapshot.runs.insertionSort (fun a b => a.minSequence ≤ b.minSequence) = runs
    at same sorted
  cases runs with
  | nil => exact absurd same.nil_eq.symm nonempty
  | cons oldest runs =>
    have earliest : ∀ run ∈ snapshot.runs, oldest.minSequence ≤ run.minSequence := by
      intro run member
      rcases mem_cons.mp (same.mem_iff.mpr member) with rfl | member
      · exact le_rfl
      · exact (pairwise_cons.mp sorted).1 run member
    have here := tiles oldest (same.mem_iff.mp mem_cons_self) earliest
    obtain ⟨contiguous, ends⟩ := (here.perm same.symm).contiguous sorted
    exact ⟨oldest :: runs, runSet_of_perm same (cons_ne_nil _ _) contiguous ends⟩

/-- What is accepted partitions the sequences. -/
theorem partitioned_of_runSet (accepted : snapshot.runSet = .ok (.runs runs)) :
    runs.Perm snapshot.runs ∧ snapshot.Partitioned := by
  obtain ⟨sorted, nonempty, contiguous, ends⟩ := runSet_runs accepted
  have same : runs.Perm snapshot.runs := by
    rw [sorted]
    exact perm_insertionSort _ _
  cases runs with
  | nil => exact absurd rfl nonempty
  | cons oldest runs =>
    refine ⟨same, ?_, ?_⟩
    · intro empty
      rw [empty] at same
      exact nonempty same.eq_nil
    · intro earliest member least
      have starts : earliest.minSequence = oldest.minSequence := by
        apply le_antisymm (least oldest (same.mem_iff.mp mem_cons_self))
        rcases mem_cons.mp (same.mem_iff.mpr member) with rfl | member
        · exact le_rfl
        · exact (pairwise_cons.mp contiguous.ascending).1 earliest member
      rw [starts]
      exact (contiguous.tiles ends).perm same

/-- The run list is accepted exactly when it partitions the sequences from its
smallest start up to the snapshot's own, it is then assembled in ascending order
whatever order it was stored in, and a snapshot without runs is accepted exactly when
it predates them.  Sequences stay below the largest word, so the successor of one is
its successor as a number. -/
theorem runSet_accepts_partitions (snapshot : SnapshotMeta) :
    ((∃ runs, snapshot.runSet = .ok (.runs runs)) ↔ snapshot.Partitioned) ∧
      (∀ runs, snapshot.runSet = .ok (.runs runs) →
        runs.Perm snapshot.runs ∧
          runs.Pairwise (fun run next => run.maxSequence < next.minSequence) ∧
          ∀ stored : List RunMeta, stored.Perm snapshot.runs →
            { snapshot with runs := stored }.runSet = .ok (.runs runs)) ∧
      (snapshot.runs = [] →
        ((∃ accepted, snapshot.runSet = .ok accepted) ↔ snapshot.formatVersion = 0) ∧
        (snapshot.formatVersion = 0 →
          snapshot.runSet = .ok (.sequencesOnly snapshot.chainStart snapshot.sequence))) := by
  refine ⟨⟨?_, Partitioned.runSet⟩, ?_, ?_⟩
  · rintro ⟨runs, accepted⟩
    exact (partitioned_of_runSet accepted).2
  · intro runs accepted
    obtain ⟨same, -⟩ := partitioned_of_runSet accepted
    obtain ⟨-, nonempty, contiguous, ends⟩ := runSet_runs accepted
    refine ⟨same, contiguous.spansAscend, ?_⟩
    intro stored perm
    exact runSet_of_perm (same.trans perm.symm) nonempty contiguous ends
  · intro empty
    have chain : snapshot.formatVersion = 0 →
        snapshot.runSet = .ok (.sequencesOnly snapshot.chainStart snapshot.sequence) := by
      intro predates
      simp [SnapshotMeta.runSet, empty, predates, formatRunSets]
    refine ⟨⟨?_, fun predates => ⟨_, chain predates⟩⟩, chain⟩
    rintro ⟨accepted, result⟩
    by_contra claims
    have listed : formatRunSets ≤ snapshot.formatVersion ∧ snapshot.runs.isEmpty :=
      ⟨Nat.one_le_iff_ne_zero.mpr claims, by rw [empty]; rfl⟩
    rw [SnapshotMeta.runSet, if_pos listed] at result
    cases result

end SnapshotMeta

end Blaze
