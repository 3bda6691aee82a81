import Blaze.Core.Stream
import Blaze.Lib.KeyedMap
import Mathlib.Data.List.Sort

/-!
# The snapshot catalog

Every commit writes one snapshot: how far the stream is covered, which data file
was added, and which runs make up the routing state.  Snapshots are numbered
densely and each number is taken by a put-if-absent, which is what decides a race
between two workers.
-/

namespace Blaze

variable {runs : List RunMeta} {snapshot : SnapshotMeta} {snapshots : Snapshots}
  {n count cachedSeq : Nat}

/-- A number written with leading zeros. -/
def padded (width n : Nat) : String :=
  let digits := toString n
  "".pushn '0' (width - digits.length) ++ digits

/-- The name of an object in the store.  Every name carries a fresh identifier,
so that no two uploads share one. -/
structure ObjectPath where
  sequence : Nat
  uuid : Nat
  deriving DecidableEq, Repr

namespace ObjectPath

/-- The name of a routing file. -/
def puffin (path : ObjectPath) : String :=
  s!"puffin/dsu-{padded 12 path.sequence}-{path.uuid}.puffin"

end ObjectPath

/-- One immutable run of routing pairs: where it is stored, its size tier, and
the catalog sequences it covers, inclusive. -/
structure RunMeta where
  path : ObjectPath
  level : Nat
  minSequence : Nat
  maxSequence : Nat
  deriving DecidableEq, Repr

namespace RunMeta

/-- Whether `run` is immediately followed by `next` with no gap. -/
def adjacentTo (run next : RunMeta) : Bool :=
  run.maxSequence + 1 == next.minSequence

end RunMeta

/-- A committed data file: where it is, how many rows it has, and the offsets it
spans. -/
structure DataFileMeta where
  path : ObjectPath
  rows : Nat
  minOffset : Nat
  maxOffset : Nat
  firstPosition : StreamPosition
  lastPosition : StreamPosition

structure SnapshotMeta where
  sequence : Nat
  committedAtMs : Int
  watermark : Nat
  position : StreamPosition
  stream : Option StreamId
  dataFiles : List DataFileMeta
  puffinPath : ObjectPath
  committer : String
  baseSequence : Nat
  deltaChainLen : Nat
  runs : List RunMeta
  formatVersion : Nat

/-- Snapshots that describe themselves as a set of runs. -/
def formatRunSets : Nat := 1

/-- Snapshots that carry a position with more than one partition. -/
def formatStreamPosition : Nat := 2

/-- How a snapshot describes its routing state: by explicit runs, or by a base
sequence followed by a contiguous chain. -/
inductive RunSet where
  | runs (runs : List RunMeta)
  | sequencesOnly (first last : Nat)
  deriving DecidableEq, Repr

namespace SnapshotMeta

/-- Where the stream stands as of this snapshot. -/
def streamPosition (snapshot : SnapshotMeta) : StreamPosition :=
  if snapshot.position.isEmpty then
    StreamPosition.single snapshot.watermark
  else
    snapshot.position

/-- Whether this snapshot may follow `previous` in the same table. -/
def advancesFrom (snapshot previous : SnapshotMeta) : Except String Unit :=
  let before := previous.streamPosition
  let after := snapshot.streamPosition
  if !after.dominates before then
    .error (s!"snapshot {snapshot.sequence} moves the stream position backwards: " ++
      s!"{after.toString} does not cover {before.toString}. A partition can only " ++
      "advance, so this is another consumer committing to the same table.")
  else
    match snapshot.stream, previous.stream with
    | some claimed, some committed =>
        if !claimed.sameStream committed then
          .error (s!"snapshot {snapshot.sequence} claims stream {claimed.toString} but " ++
            s!"snapshot {previous.sequence} committed {committed.toString}; offsets from " ++
            "one are meaningless in the other")
        else
          .ok ()
    | _, _ => .ok ()

/-- The sequence the chain of a snapshot without runs starts at. -/
def chainStart (snapshot : SnapshotMeta) : Nat :=
  if snapshot.baseSequence = 0 then snapshot.sequence else snapshot.baseSequence

/-- No run may span backwards. -/
def checkSpans (snapshot : SnapshotMeta) : List RunMeta → Except String Unit
  | [] => .ok ()
  | run :: runs =>
      if run.minSequence ≤ run.maxSequence then
        snapshot.checkSpans runs
      else
        .error (s!"snapshot {snapshot.sequence}: run {run.path.puffin} spans backwards " ++
          s!"({run.minSequence}..={run.maxSequence})")

/-- Each run must start right after the one before it. -/
def checkAdjacent (snapshot : SnapshotMeta) : List RunMeta → Except String Unit
  | first :: second :: runs =>
      if first.adjacentTo second then
        snapshot.checkAdjacent (second :: runs)
      else
        .error (s!"snapshot {snapshot.sequence}: runs {first.minSequence}..=" ++
          s!"{first.maxSequence} and {second.minSequence}..={second.maxSequence} are not " ++
          "adjacent, so sequence order is ambiguous")
  | _ => .ok ()

/-- The newest run must reach the snapshot's own sequence. -/
def checkNewest (snapshot : SnapshotMeta) (runs : List RunMeta) : Except String Unit :=
  match runs.getLast? with
  | none => .ok ()
  | some newest =>
      if newest.maxSequence = snapshot.sequence then
        .ok ()
      else
        .error (s!"snapshot {snapshot.sequence}: newest run ends at {newest.maxSequence}, so " ++
          "this commit's own sequence is in no run")

/-- The runs to assemble, oldest first, with their spans checked. -/
def runSet (snapshot : SnapshotMeta) : Except String RunSet :=
  if formatRunSets ≤ snapshot.formatVersion ∧ snapshot.runs.isEmpty then
    .error s!"snapshot {snapshot.sequence} claims the run-set format but lists no runs"
  else if snapshot.runs.isEmpty then
    .ok (.sequencesOnly snapshot.chainStart snapshot.sequence)
  else do
    let runs := snapshot.runs.insertionSort fun a b => a.minSequence ≤ b.minSequence
    snapshot.checkSpans runs
    snapshot.checkAdjacent runs
    snapshot.checkNewest runs
    return .runs runs

end SnapshotMeta

/-! ## Run sets that are accepted -/

/-- Spans that follow one another without gap or overlap. -/
structure Contiguous (runs : List RunMeta) : Prop where
  forwards : ∀ run ∈ runs, run.minSequence ≤ run.maxSequence
  adjacent : runs.IsChain fun run next => run.maxSequence + 1 = next.minSequence

/-- The newest run reaches the sequence. -/
def EndsAt (runs : List RunMeta) (sequence : Nat) : Prop :=
  ∀ newest ∈ runs.getLast?, newest.maxSequence = sequence

namespace SnapshotMeta

theorem checkSpans_ok_iff (snapshot : SnapshotMeta) (runs : List RunMeta) :
    snapshot.checkSpans runs = .ok () ↔ ∀ run ∈ runs, run.minSequence ≤ run.maxSequence := by
  induction runs with
  | nil => simp [checkSpans]
  | cons run runs ih =>
    rw [checkSpans, List.forall_mem_cons]
    split
    · next forwards => simp [forwards, ih]
    · next backwards => simp [backwards]

theorem checkAdjacent_ok_iff (snapshot : SnapshotMeta) (runs : List RunMeta) :
    snapshot.checkAdjacent runs = .ok () ↔
      runs.IsChain fun run next => run.maxSequence + 1 = next.minSequence := by
  induction runs with
  | nil => simp [checkAdjacent]
  | cons first runs ih =>
    cases runs with
    | nil => simp [checkAdjacent]
    | cons second runs =>
      rw [checkAdjacent, List.isChain_cons_cons]
      by_cases adjacent : first.maxSequence + 1 = second.minSequence
      · rw [if_pos (by simpa [RunMeta.adjacentTo] using adjacent), ih]
        simp [adjacent]
      · rw [if_neg (by simpa [RunMeta.adjacentTo] using adjacent)]
        simp [adjacent]

theorem checkNewest_ok_iff (snapshot : SnapshotMeta) (runs : List RunMeta) :
    snapshot.checkNewest runs = .ok () ↔ EndsAt runs snapshot.sequence := by
  unfold checkNewest EndsAt
  cases runs.getLast? with
  | none => simp
  | some newest =>
    by_cases reaches : newest.maxSequence = snapshot.sequence <;> simp [reaches]

end SnapshotMeta

/-- A contiguous set lists its spans in ascending order, each ending before the next
one starts. -/
theorem Contiguous.spansAscend (contiguous : Contiguous runs) :
    runs.Pairwise fun run next => run.maxSequence < next.minSequence := by
  induction runs with
  | nil => exact List.Pairwise.nil
  | cons run runs ih =>
    have forwards := fun other member =>
      contiguous.forwards other (List.mem_cons_of_mem run member)
    have later := ih ⟨forwards, contiguous.adjacent.of_cons⟩
    refine List.Pairwise.cons (fun next member => ?_) later
    cases runs with
    | nil => cases member
    | cons second runs =>
      have adjacent := (List.isChain_cons_cons.mp contiguous.adjacent).1
      have here := forwards second List.mem_cons_self
      rcases List.mem_cons.mp member with rfl | member
      · omega
      · have after := (List.pairwise_cons.mp later).1 next member
        omega

/-- Contiguous runs begin one after the other. -/
theorem Contiguous.strictlyAscending (contiguous : Contiguous runs) :
    runs.Pairwise fun run next => run.minSequence < next.minSequence :=
  contiguous.spansAscend.imp_of_mem fun member _ before =>
    (contiguous.forwards _ member).trans_lt before

/-- Contiguous runs are already in the order of their spans. -/
theorem Contiguous.ascending (contiguous : Contiguous runs) :
    runs.Pairwise fun run next => run.minSequence ≤ next.minSequence :=
  contiguous.strictlyAscending.imp fun before => before.le

/-- A non-empty run set that is contiguous once sorted, and then ends at the
snapshot's own sequence, is accepted. -/
theorem SnapshotMeta.runSet_of_sorted
    (sorted : snapshot.runs.insertionSort (fun a b => a.minSequence ≤ b.minSequence) = runs)
    (nonempty : snapshot.runs ≠ []) (contiguous : Contiguous runs)
    (ends : EndsAt runs snapshot.sequence) : snapshot.runSet = .ok (.runs runs) := by
  have listed : snapshot.runs.isEmpty = false := by simpa using nonempty
  unfold runSet
  simp only [listed, Bool.false_eq_true, and_false, if_false, sorted,
    (snapshot.checkSpans_ok_iff _).mpr contiguous.forwards,
    (snapshot.checkAdjacent_ok_iff _).mpr contiguous.adjacent,
    (snapshot.checkNewest_ok_iff _).mpr ends]
  rfl

/-- A contiguous, non-empty run set that ends at the snapshot's own sequence is
accepted as it is listed. -/
theorem SnapshotMeta.runSet_of_contiguous (nonempty : snapshot.runs ≠ [])
    (contiguous : Contiguous snapshot.runs) (ends : EndsAt snapshot.runs snapshot.sequence) :
    snapshot.runSet = .ok (.runs snapshot.runs) :=
  runSet_of_sorted contiguous.ascending.insertionSort_eq nonempty contiguous ends

/-- What is accepted is the listed runs in span order, contiguous and ending at
the snapshot's own sequence. -/
theorem SnapshotMeta.runSet_runs (accepted : snapshot.runSet = .ok (.runs runs)) :
    runs = snapshot.runs.insertionSort (fun a b => a.minSequence ≤ b.minSequence) ∧ runs ≠ [] ∧
      Contiguous runs ∧ EndsAt runs snapshot.sequence := by
  unfold runSet at accepted
  split at accepted
  · cases accepted
  · split at accepted
    · cases accepted
    · next listed =>
        dsimp only at accepted
        generalize sortedDef : snapshot.runs.insertionSort
          (fun a b => a.minSequence ≤ b.minSequence) = sorted at accepted
        have perm : sorted.Perm snapshot.runs := by
          rw [← sortedDef]
          exact List.perm_insertionSort _ _
        cases spans : snapshot.checkSpans sorted with
        | error message =>
          rw [spans] at accepted
          cases accepted
        | ok _ =>
          cases adjacent : snapshot.checkAdjacent sorted with
          | error message =>
            rw [spans, adjacent] at accepted
            cases accepted
          | ok _ =>
            cases newest : snapshot.checkNewest sorted with
            | error message =>
              rw [spans, adjacent, newest] at accepted
              cases accepted
            | ok _ =>
              rw [spans, adjacent, newest] at accepted
              cases accepted
              refine ⟨rfl, ?_, ⟨(snapshot.checkSpans_ok_iff _).mp spans,
                (snapshot.checkAdjacent_ok_iff _).mp adjacent⟩,
                (snapshot.checkNewest_ok_iff _).mp newest⟩
              intro empty
              rw [empty] at perm
              exact listed (by simpa using perm.nil_eq.symm)

/-! ## Reading and committing -/

inductive CommitOutcome where
  | committed
  | conflict
  deriving DecidableEq, Repr

/-- The metadata objects by sequence. -/
abbrev Snapshots := Std.TreeMap Nat SnapshotMeta

namespace SnapshotCatalog

/-- Full listing for a cold catalog view: the highest sequence, zero if there is
none. -/
def scanLatestSeq (snapshots : Snapshots) : Nat :=
  snapshots.keys.foldl max 0

/-- Probe forward from a sequence until the next one does not exist. -/
def probe (snapshots : Snapshots) : Nat → Nat → Nat
  | 0, seq => seq
  | fuel + 1, seq =>
      if snapshots.contains (seq + 1) then probe snapshots fuel (seq + 1) else seq

/-- The sequence `latest` reads and caches.  A probe that hits is at most the
highest sequence there is, which bounds the number of probes. -/
def latestSeq (snapshots : Snapshots) (cachedSeq : Nat) : Nat :=
  let seq := if cachedSeq = 0 then scanLatestSeq snapshots else cachedSeq
  if seq = 0 then 0 else probe snapshots (scanLatestSeq snapshots) seq

/-- Latest committed snapshot, if any, and the cached sequence afterwards. -/
def latest (snapshots : Snapshots) (cachedSeq : Nat) :
    Nat × Except String (Option SnapshotMeta) :=
  let seq := latestSeq snapshots cachedSeq
  if seq = 0 then
    (cachedSeq, .ok none)
  else
    (max cachedSeq seq, match snapshots[seq]? with
      | none => .error "object not found"
      | some snapshot => .ok (some snapshot))

/-- One specific snapshot by sequence. -/
def get (snapshots : Snapshots) (sequence : Nat) : Except String SnapshotMeta :=
  match snapshots[sequence]? with
  | none => .error s!"delta chain is missing snapshot {sequence}: object not found"
  | some snapshot => .ok snapshot

/-- Atomically publish a snapshot unless its sequence is taken. -/
def commit (snapshots : Snapshots) (snapshot : SnapshotMeta) : Snapshots × CommitOutcome :=
  if snapshots.contains snapshot.sequence then
    (snapshots, .conflict)
  else
    (snapshots.insert snapshot.sequence snapshot, .committed)

theorem get_eq_ok_iff {sequence : Nat} :
    get snapshots sequence = .ok snapshot ↔ snapshots[sequence]? = some snapshot := by
  unfold get
  cases snapshots[sequence]? with
  | none => simp
  | some held => simp

/-- The committed sequences are exactly `1` to `count`. -/
def Dense (snapshots : Snapshots) (count : Nat) : Prop :=
  ∀ k, k ∈ snapshots ↔ 1 ≤ k ∧ k ≤ count

theorem foldl_max_le (keys : List Nat) (start bound : Nat) :
    keys.foldl max start ≤ bound ↔ start ≤ bound ∧ ∀ k ∈ keys, k ≤ bound := by
  induction keys generalizing start with
  | nil => simp
  | cons k keys ih =>
    rw [List.foldl_cons, ih, max_le_iff, List.forall_mem_cons, and_assoc]

theorem scanLatestSeq_le_iff {bound : Nat} :
    scanLatestSeq snapshots ≤ bound ↔ ∀ k ∈ snapshots, k ≤ bound := by
  rw [scanLatestSeq, foldl_max_le]
  constructor
  · rintro ⟨-, keys⟩ k member
    exact keys k (Std.TreeMap.mem_keys.mpr member)
  · intro all
    exact ⟨Nat.zero_le bound, fun k key => all k (Std.TreeMap.mem_keys.mp key)⟩

theorem scanLatestSeq_eq (present : n ∈ snapshots) (top : ∀ k ∈ snapshots, k ≤ n) :
    scanLatestSeq snapshots = n :=
  le_antisymm (scanLatestSeq_le_iff.mpr top) (scanLatestSeq_le_iff.mp le_rfl n present)

theorem scanLatestSeq_of_dense (dense : Dense snapshots count) :
    scanLatestSeq snapshots = count := by
  have top : ∀ k ∈ snapshots, k ≤ count := fun k member => ((dense k).mp member).2
  by_cases empty : count = 0
  · subst empty
    exact Nat.le_zero.mp (scanLatestSeq_le_iff.mpr top)
  · exact scanLatestSeq_eq ((dense count).mpr ⟨Nat.one_le_iff_ne_zero.mpr empty, le_rfl⟩) top

/-- Probing stops at the first sequence that is missing. -/
theorem probe_spec (fuel seq : Nat) (enough : ∀ k ∈ snapshots, k ≤ seq + fuel) :
    seq ≤ probe snapshots fuel seq ∧
      (∀ k, seq < k → k ≤ probe snapshots fuel seq → k ∈ snapshots) ∧
      probe snapshots fuel seq + 1 ∉ snapshots := by
  induction fuel generalizing seq with
  | zero =>
    rw [probe]
    refine ⟨le_rfl, fun k above below => by omega, fun next => ?_⟩
    have bound := enough _ next
    omega
  | succ fuel ih =>
    rw [probe]
    by_cases next : seq + 1 ∈ snapshots
    · rw [if_pos (Std.TreeMap.contains_iff_mem.mpr next)]
      rcases ih (seq + 1) (fun k member => by
        have bound := enough k member
        omega) with ⟨passed, present, stops⟩
      refine ⟨by omega, fun k above below => ?_, stops⟩
      by_cases first : k = seq + 1
      · rw [first]
        exact next
      · exact present k (by omega) below
    · rw [if_neg (by rwa [Std.TreeMap.contains_iff_mem])]
      exact ⟨le_rfl, fun k above below => by omega, next⟩

theorem probe_of_dense (dense : Dense snapshots count) (fuel seq : Nat) (below : seq ≤ count)
    (enough : count ≤ seq + fuel) : probe snapshots fuel seq = count := by
  rcases probe_spec fuel seq fun k member => ((dense k).mp member).2.trans enough with
    ⟨passed, run, stops⟩
  rw [dense] at stops
  by_cases stays : probe snapshots fuel seq = seq
  · omega
  · have inside := (dense _).mp (run _ (by omega) le_rfl)
    omega

theorem latestSeq_of_dense (dense : Dense snapshots count) (cached : cachedSeq ≤ count) :
    latestSeq snapshots cachedSeq = count := by
  unfold latestSeq
  rw [scanLatestSeq_of_dense dense]
  dsimp only
  split
  · split
    · omega
    · exact probe_of_dense dense count count le_rfl (by omega)
  · exact probe_of_dense dense count cachedSeq cached (by omega)

/-- On a dense catalog `latest` returns the newest snapshot, wherever the cached
sequence stands. -/
theorem latest_of_dense (dense : Dense snapshots count) (cached : cachedSeq ≤ count) :
    latest snapshots cachedSeq = (count, .ok snapshots[count]?) := by
  unfold latest
  rw [latestSeq_of_dense dense cached]
  dsimp only
  split
  · next none =>
      subst none
      have absent : snapshots[0]? = none := by
        apply Std.TreeMap.getElem?_eq_none
        rw [dense]
        omega
      rw [absent, Nat.le_zero.mp cached]
  · next some =>
      have present : count ∈ snapshots := (dense count).mpr ⟨by omega, le_rfl⟩
      rw [max_eq_right cached, Std.TreeMap.getElem?_eq_some_getElem present]

/-! ## Catalogs with holes -/

/-- Nothing above the highest sequence is observed. -/
theorem latest_fst_le (top : ∀ k ∈ snapshots, k ≤ n) (observed : cachedSeq ≤ n) :
    (latest snapshots cachedSeq).1 ≤ n := by
  have scanned : scanLatestSeq snapshots ≤ n := scanLatestSeq_le_iff.mpr top
  have highest : ∀ k ∈ snapshots, k ≤ scanLatestSeq snapshots := scanLatestSeq_le_iff.mp le_rfl
  have probed : ∀ seq ≤ n, probe snapshots (scanLatestSeq snapshots) seq ≤ n := by
    intro seq below
    rcases probe_spec (scanLatestSeq snapshots) seq fun k member =>
      (highest k member).trans (Nat.le_add_left _ seq) with ⟨passed, run, -⟩
    by_cases stays : probe snapshots (scanLatestSeq snapshots) seq = seq
    · rw [stays]
      exact below
    · exact top _ (run _ (by omega) le_rfl)
  have reached : latestSeq snapshots cachedSeq ≤ n := by
    unfold latestSeq
    dsimp only
    split
    · split
      · exact Nat.zero_le n
      · exact probed _ scanned
    · exact probed _ observed
  unfold latest
  dsimp only
  split
  · exact observed
  · exact max_le observed reached

/-- A catalog that has observed nothing, or the newest snapshot, finds it. -/
theorem latest_of_newest (present : n ≠ 0 → n ∈ snapshots) (top : ∀ k ∈ snapshots, k ≠ 0 ∧ k ≤ n)
    (observed : cachedSeq = 0 ∨ cachedSeq = n) :
    latest snapshots cachedSeq = (n, .ok snapshots[n]?) := by
  by_cases zero : n = 0
  · subst zero
    have cold : cachedSeq = 0 := observed.elim id id
    have absent : snapshots[0]? = none := by
      apply Std.TreeMap.getElem?_eq_none
      exact fun member => (top 0 member).1 rfl
    have scanned : scanLatestSeq snapshots = 0 :=
      Nat.le_zero.mp (scanLatestSeq_le_iff.mpr fun k member => (top k member).2)
    unfold latest latestSeq
    rw [cold, scanned, absent]
    rfl
  · have scanned := scanLatestSeq_eq (present zero) fun k member => (top k member).2
    have stops : probe snapshots n n = n := by
      rcases probe_spec n n fun k member => (top k member).2.trans (Nat.le_add_left n n) with
        ⟨passed, run, -⟩
      by_contra further
      have bound := (top _ (run _ (by omega) le_rfl)).2
      omega
    have reached : latestSeq snapshots cachedSeq = n := by
      unfold latestSeq
      rw [scanned]
      rcases observed with rfl | rfl
      · simp only [if_true, if_neg zero]
        exact stops
      · simp only [if_neg zero]
        exact stops
    unfold latest
    rw [reached]
    dsimp only
    rw [if_neg zero, Std.TreeMap.getElem?_eq_some_getElem (present zero)]
    rcases observed with rfl | rfl
    · rw [Nat.zero_max]
    · rw [max_self]

/-- Where the newest snapshot is still there, `latest` returns it exactly when the
catalog has not observed anything yet, or nothing is missing above what it has
observed. -/
theorem latest_eq_newest_iff {newest : SnapshotMeta} (stored : snapshots[n]? = some newest)
    (positive : n ≠ 0)
    (named : ∀ (k : Nat) (snapshot : SnapshotMeta), snapshots[k]? = some snapshot →
      snapshot.sequence = k)
    (top : ∀ k ∈ snapshots, k ≤ n) (observed : cachedSeq ≤ n) :
    (latest snapshots cachedSeq).2 = .ok (some newest) ↔
      cachedSeq = 0 ∨ ∀ k, cachedSeq < k → k ≤ n → k ∈ snapshots := by
  have present := KeyedMap.mem_of_getElem? stored
  have scanned := scanLatestSeq_eq present top
  have reaches : (latest snapshots cachedSeq).2 = .ok (some newest) ↔
      latestSeq snapshots cachedSeq = n := by
    unfold latest
    dsimp only
    constructor
    · intro returned
      split at returned
      · cases returned
      · dsimp only at returned
        split at returned
        · cases returned
        · next snapshot found =>
            cases returned
            exact (named _ _ found).symm.trans (named _ _ stored)
    · intro same
      rw [same, if_neg positive]
      dsimp only
      rw [stored]
  have probed : ∀ seq ≤ n, seq ≠ 0 → (probe snapshots n seq = n ↔
      ∀ k, seq < k → k ≤ n → k ∈ snapshots) := by
    intro seq below nonzero
    rcases probe_spec n seq fun k member => (top k member).trans (Nat.le_add_left n seq) with
      ⟨passed, run, stops⟩
    constructor
    · intro same
      rw [same] at run
      exact run
    · intro all
      have notBelow : ¬ probe snapshots n seq < n := fun short =>
        stops (all _ (by omega) (by omega))
      by_contra different
      have above := top _ (run (probe snapshots n seq) (by omega) le_rfl)
      omega
  rw [reaches]
  unfold latestSeq
  rw [scanned]
  dsimp only
  by_cases cold : cachedSeq = 0
  · rw [if_pos cold, if_neg positive, probed n le_rfl positive]
    simp only [cold, true_or, iff_true]
    intro k above below
    omega
  · rw [if_neg cold, if_neg cold, probed cachedSeq observed cold]
    simp [cold]

theorem commit_of_mem (taken : snapshot.sequence ∈ snapshots) :
    commit snapshots snapshot = (snapshots, .conflict) := by
  rw [commit, if_pos (Std.TreeMap.contains_iff_mem.mpr taken)]

theorem commit_of_not_mem (free : snapshot.sequence ∉ snapshots) :
    commit snapshots snapshot = (snapshots.insert snapshot.sequence snapshot, .committed) := by
  rw [commit, if_neg (by rwa [Std.TreeMap.contains_iff_mem])]

/-- Inserting the next sequence keeps the catalog dense. -/
theorem Dense.insert (dense : Dense snapshots count) (snapshot : SnapshotMeta) :
    Dense (snapshots.insert (count + 1) snapshot) (count + 1) := by
  intro k
  rw [Std.TreeMap.mem_insert, dense, Std.LawfulEqCmp.compare_eq_iff_eq]
  omega

end SnapshotCatalog

end Blaze
