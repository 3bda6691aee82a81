import Blaze.Storage.BlockDecode
import Blaze.Storage.MappedTables

/-!
# Reading a registry back

The registry entries that were written, in either encoding, are what the readers of
the two encodings answer from.
-/

namespace Blaze

open List Bytes Fallible Search

variable {it next : BlockedIter} {entries : List (NodeId × ScopeId)} {i stop : Nat}
  {values : List Nat} {records : List BlockRecord}

/-! ## Lookups in blocks -/

namespace BlockedRegistry

variable {data : List UInt8}

theorem decodeScopes_eq (hit : Bool) {prev : Nat} (gapped : Gapped data prev i values)
    (small : ∀ value ∈ values, value < 2 ^ 32) (out : List ScopeId) :
    decodeScopes data hit values.length i prev out =
      .ok (if hit then out ++ values else out, i + (gapBytes prev values).length) := by
  induction values generalizing prev i out with
  | nil => cases hit <;> simp [decodeScopes, gapBytes]
  | cons value values ih =>
    obtain ⟨read, varint, sum, rest, place⟩ := gapped.read
    have scope : value % 2 ^ 32 = value := Nat.mod_eq_of_lt (small value mem_cons_self)
    have decoded := ih rest
      (fun other member => small other (mem_cons_of_mem _ member))
      (if hit then out ++ [value] else out)
    rw [length_cons, decodeScopes, varint, ok_bind]
    dsimp only
    rw [sum, scope, decoded, place]
    cases hit <;> simp

/-- Decoding records stops at the wanted root or behind it. -/
theorem decodeRecords_eq (mapped : data.length < 2 ^ 64) {first : Bool} {cur : Nat}
    (reading : Reading data stop first cur i records)
    (small : ∀ record ∈ records, ∀ value ∈ record.2, value < 2 ^ 32) (want : NodeId) :
    decodeRecords data want stop records.length first cur i = .ok (valuesIn records want) := by
  induction records generalizing first cur i with
  | nil => rfl
  | cons record records ih =>
    have above := (pairwise_cons.mp reading.ordered.keys).1
    obtain ⟨k, j, key, count, gapped, rest⟩ := reading.readRecord mapped
    have scopes := fun hit => decodeScopes_eq hit gapped (small record mem_cons_self) []
    rw [length_cons, decodeRecords, key, ok_bind]
    dsimp only
    rw [count, ok_bind]
    dsimp only
    rw [valuesIn_cons]
    rcases Nat.lt_trichotomy record.1 want with before | rfl | behind
    · have decoded := ih rest
        (fun other member => small other (mem_cons_of_mem _ member))
      have other : (record.1 == want) = false := beq_false_of_ne before.ne
      have inside := (Nat.le_add_right _ _).trans rest.inside
      rw [if_neg before.not_gt, other, scopes, ok_bind, if_neg before.ne]
      dsimp only
      rw [if_neg Bool.false_ne_true, ensure_of inside, ok_bind, decoded]
      rfl
    · have later : ∀ other ∈ records, other.1 ≠ record.1 := fun other member =>
        (above other member).ne'
      rw [if_neg (lt_irrefl _), scopes, ok_bind, valuesIn_of_ne later]
      simp
    · have later : ∀ other ∈ records, other.1 ≠ want := fun other member =>
        (behind.trans (above other member)).ne'
      rw [if_pos behind, if_neg behind.ne', valuesIn_of_ne later]
      rfl

variable {t : BlockedTable} {blocks : List (List BlockRecord)}

/-- The scopes of a root, whether a block has it or none. -/
theorem scopesFor_eq (mapped : data.length < 2 ^ 64) (stores : t.Stores data blocks)
    (ok : BlocksOk blocks) (small : ∀ record ∈ blocks.flatten, ∀ value ∈ record.2, value < 2 ^ 32)
    (root : NodeId) : scopesFor t data root = .ok (valuesIn blocks.flatten root) := by
  obtain ⟨absent, present⟩ := ok.valuesIn_eq root
  rw [scopesFor, stores.firstKeys]
  split
  · next none => rw [absent none]
  · next some =>
      obtain ⟨block, place, values⟩ := present some
      obtain ⟨records, reading⟩ := stores.reading ok place
      have decoded := decodeRecords_eq mapped reading (fun record inBlock => small record
        (mem_flatten.mpr ⟨block, mem_of_getElem? place, inBlock⟩)) root
      rw [decodeBlock, records, ok_bind, decoded, values]

end BlockedRegistry

/-! ## Iteration over blocks -/

namespace BlockedIter

variable {t : BlockedTable} {data : List UInt8}

/-- The iteration ends, with these entries. -/
def Yields (t : BlockedTable) (data : List UInt8) (it : BlockedIter)
    (entries : List (NodeId × ScopeId)) : Prop :=
  ∃ turns, collect t data turns it = .ok (some entries)

theorem yields_item {entry : NodeId × ScopeId} (step : it.step t data = .ok (.item entry next))
    (rest : Yields t data next entries) : Yields t data it (entry :: entries) := by
  obtain ⟨turns, collected⟩ := rest
  refine ⟨turns + 1, ?_⟩
  rw [collect, step, ok_bind]
  dsimp only
  rw [collected]
  rfl

theorem yields_again (step : it.step t data = .ok (.again next))
    (rest : Yields t data next entries) :
    Yields t data it entries := by
  obtain ⟨turns, collected⟩ := rest
  refine ⟨turns + 1, ?_⟩
  rw [collect, step, ok_bind]
  exact collected

theorem yields_done (step : it.step t data = .ok .done) : Yields t data it [] := by
  refine ⟨1, ?_⟩
  rw [collect, step]
  rfl

/-- More turns do not change what an iteration that ended has yielded. -/
theorem collect_mono {turns : Nat} (collected : collect t data turns it = .ok (some entries)) :
    collect t data (turns + 1) it = .ok (some entries) := by
  induction turns generalizing it entries with
  | zero => cases collected
  | succ turns ih =>
    rw [collect] at collected ⊢
    cases step : it.step t data with
    | error fault =>
      rw [step] at collected
      cases collected
    | ok stepped =>
      rw [step, ok_bind] at collected
      rw [ok_bind]
      cases stepped with
      | again next => exact ih collected
      | done => exact collected
      | item entry next =>
        dsimp only at collected ⊢
        cases rest : collect t data turns next with
        | error fault =>
          rw [rest] at collected
          cases collected
        | ok found =>
          cases found with
          | none =>
            rw [rest] at collected
            cases collected
          | some found =>
            rw [ih rest, ← collected, rest]

theorem Yields.unique {first second : List (NodeId × ScopeId)} (one : Yields t data it first)
    (two : Yields t data it second) : first = second := by
  have later : ∀ {turns : Nat} {entries : List (NodeId × ScopeId)} (more : Nat),
      collect t data turns it = .ok (some entries) →
        collect t data (turns + more) it = .ok (some entries) := by
    intro turns entries more collected
    induction more with
    | zero => exact collected
    | succ more ih => exact collect_mono ih
  obtain ⟨turns, one⟩ := one
  obtain ⟨turns', two⟩ := two
  have one := later turns' one
  have two := later turns two
  rw [Nat.add_comm, two] at one
  cases one
  rfl

/-- The scopes of an open record come one by one. -/
theorem yields_scopes (small : ∀ value ∈ values, value < 2 ^ 32)
    (gapped : Gapped data it.scope it.place values) (count : it.scopes = values.length)
    (rest : ∀ scope, Yields t data { it with
      place := it.place + (gapBytes it.scope values).length
      scopes := 0
      scope := scope } entries) :
    Yields t data it (values.map (fun value => (it.root, value)) ++ entries) := by
  induction values generalizing it with
  | nil =>
    have done := rest it.scope
    rw [gapBytes] at done
    have same : ({ it with place := it.place + ([] : List UInt8).length, scopes := 0 } :
        BlockedIter) = it := by
      cases it
      cases count
      rfl
    exact same ▸ done
  | cons value values ih =>
    obtain ⟨read, varint, sum, tail, place⟩ := gapped.read
    have scope : value % 2 ^ 32 = value := Nat.mod_eq_of_lt (small value mem_cons_self)
    have step : it.step t data = .ok (.item (it.root, value) { it with
        place := read.2, scope := value, scopes := values.length }) := by
      rw [BlockedIter.step, if_pos (by rw [count]; exact Nat.succ_pos _), varint]
      dsimp only
      rw [sum, scope, count]
      rfl
    refine yields_item step (ih
      (fun other member => small other (mem_cons_of_mem _ member)) tail rfl fun last => ?_)
    dsimp only
    rw [place]
    exact rest last

/-- The records of an open block come one by one. -/
theorem yields_records (mapped : data.length < 2 ^ 64)
    (small : ∀ record ∈ records, ∀ value ∈ record.2, value < 2 ^ 32)
    (reading : Reading data stop it.first it.root it.place records)
    (count : it.records = records.length) (between : it.scopes = 0)
    (rest : ∀ next : BlockedIter, next.block = it.block → next.records = 0 → next.scopes = 0 →
      Yields t data next entries) : Yields t data it (records.flatMap entriesOf ++ entries) := by
  induction records generalizing it with
  | nil => exact rest it rfl count between
  | cons record records ih =>
    obtain ⟨k, j, key, values, gapped, tail⟩ := reading.readRecord mapped
    have step : it.step t data = .ok (.again { it with
        root := record.1, first := false, place := j, scopes := record.2.length, scope := 0,
        records := records.length }) := by
      rw [BlockedIter.step, if_neg (by rw [between]; exact lt_irrefl 0),
        if_neg (by rw [count]; exact Nat.succ_ne_zero _), key]
      dsimp only
      rw [values, count]
      rfl
    rw [flatMap_cons, append_assoc]
    refine yields_again step (yields_scopes (small record mem_cons_self) gapped rfl
      fun scope => ?_)
    exact ih (fun other member => small other (mem_cons_of_mem _ member))
      tail rfl rfl fun next block => rest next block

/-- From the start of a block on, the entries of it and of the ones behind it come. -/
theorem yields_blocks (mapped : data.length < 2 ^ 64) {blocks : List (List BlockRecord)}
    (stores : t.Stores data blocks) (ok : BlocksOk blocks)
    (small : ∀ record ∈ blocks.flatten, ∀ value ∈ record.2, value < 2 ^ 32)
    {behind : List (List BlockRecord)} (left : blocks.drop it.block = behind)
    (closed : it.records = 0) (between : it.scopes = 0) :
    Yields t data it (behind.flatten.flatMap entriesOf) := by
  have count : t.firstKeys.length = blocks.length := by
    rw [stores.firstKeys, length_map]
  induction behind generalizing it with
  | nil =>
    have finished := drop_eq_nil_iff.mp left
    apply yields_done
    rw [BlockedIter.step, if_neg (by rw [between]; exact lt_irrefl 0), if_pos closed,
      if_pos (count ▸ finished)]
  | cons block behind ih =>
    have place : blocks[it.block]? = some block := by
      rw [← head?_drop, left]
      rfl
    obtain ⟨inside, -⟩ := List.getElem?_eq_some_iff.mp place
    obtain ⟨records, reading⟩ := stores.reading ok place
    have step : it.step t data = .ok (.again { it with
        root := t.firstKeys.getD it.block 0, records := block.length,
        place := t.blockAt it.block + 12, first := true, block := it.block + 1 }) := by
      rw [BlockedIter.step, if_neg (by rw [between]; exact lt_irrefl 0), if_pos closed,
        if_neg (by rw [count]; exact not_le.mpr inside), records]
      rfl
    rw [flatten_cons, flatMap_append]
    refine yields_again step (yields_records mapped (fun record inBlock => small record
      (mem_flatten.mpr ⟨block, mem_of_getElem? place, inBlock⟩)) reading rfl between
      fun next same closed between => ?_)
    refine ih ?_ closed between
    rw [same]
    change blocks.drop (it.block + 1) = behind
    rw [← drop_drop, left]
    rfl

end BlockedIter

/-! ## Either encoding -/

/-- Whichever registry encoding a layer carries. -/
inductive RegistryTable where
  | flat (t : FlatRegistry)
  | blocked (t : BlockedTable)

namespace RegistryTable

/-- The blob type decides how a registry is parsed; other blobs are no registry. -/
def parse (blobType : String) (data : List UInt8) (start stop : Nat) :
    Except Fault (Option RegistryTable) :=
  if blobType = registryFlatBlobType then do
    .ok (some (.flat (← FlatRegistry.parse data start stop)))
  else if blobType = registryBlockedBlobType then do
    .ok (some (.blocked (← BlockedRegistry.parse data start stop)))
  else
    .ok none

def scopesFor (data : List UInt8) (root : NodeId) : RegistryTable → Except Fault (List ScopeId)
  | .flat t => t.scopesFor data root
  | .blocked t => BlockedRegistry.scopesFor t data root

/-- The iterator ends, with these entries. -/
def Iterates (data : List UInt8) (entries : List (NodeId × ScopeId)) : RegistryTable → Prop
  | .flat t => t.iter data = .ok entries
  | .blocked t => BlockedIter.Yields t data .new entries

/-- The table answers and iterates like the list of its entries. -/
def Answers (table : RegistryTable) (data : List UInt8) (entries : List (NodeId × ScopeId)) :
    Prop :=
  (∀ root, table.scopesFor data root =
    .ok ((entries.filter fun entry => entry.1 = root).map Prod.snd)) ∧
    table.Iterates data entries

end RegistryTable

/-- The open record ends with the last value that was pushed. -/
theorem BlockWriter.push_last (w : BlockWriter) (key value : Nat) :
    (w.push key value).key = some key ∧ (w.push key value).values.getLast? = some value := by
  unfold push
  split
  · next same => exact ⟨same, getLast?_concat⟩
  · exact ⟨rfl, rfl⟩

namespace RegistryWriter

/-- The writer after entries. -/
def pushAll (w : RegistryWriter) (entries : List (NodeId × ScopeId)) : RegistryWriter :=
  entries.foldl (fun w entry => w.push entry.1 entry.2) w

/-- The flat writer appends entry after entry. -/
theorem pushAll_flat (blockBytes : Nat) (entries : List (NodeId × ScopeId)) :
    (withBlockSize .flat blockBytes).pushAll entries =
      ⟨.flat, entries.length, entries.flatMap (entryBytes 4), BlockWriter.new blockBytes⟩ := by
  induction entries using List.reverseRecOn with
  | nil => rfl
  | append_singleton entries entry ih =>
    rw [pushAll, foldl_append]
    change ((withBlockSize .flat blockBytes).pushAll entries).push entry.1 entry.2 = _
    rw [ih]
    simp [push, entryBytes]

/-- The blocked writer drops no entry of an ascending list. -/
theorem pushAll_blocked (blockBytes : Nat)
    (ascending : entries.Pairwise fun first second => toLex first < toLex second) :
    (withBlockSize .blocked blockBytes).pushAll entries =
      ⟨.blocked, entries.length, [], entries.foldl (fun w entry => w.push entry.1 entry.2)
        (BlockWriter.new blockBytes)⟩ := by
  induction entries using List.reverseRecOn with
  | nil => rfl
  | append_singleton entries entry ih =>
    obtain ⟨before, -, above⟩ := pairwise_append.mp ascending
    rw [pushAll, foldl_append]
    change ((withBlockSize .blocked blockBytes).pushAll entries).push entry.1 entry.2 = _
    rw [ih before]
    have fresh : ¬ ((entries.foldl (fun w entry => w.push entry.1 entry.2)
        (BlockWriter.new blockBytes)).key = some entry.1 ∧
        (entries.foldl (fun w entry => w.push entry.1 entry.2)
          (BlockWriter.new blockBytes)).values.getLast? = some entry.2) := by
      rcases eq_nil_or_concat entries with rfl | ⟨init, last, rfl⟩
      · rintro ⟨opened, -⟩
        cases opened
      · rw [concat_eq_append, foldl_append]
        rintro ⟨key, value⟩
        have pushed := BlockWriter.push_last
          (init.foldl (fun w entry => w.push entry.1 entry.2) (BlockWriter.new blockBytes))
          last.1 last.2
        have same : last = entry :=
          Prod.ext (Option.some.inj (pushed.1.symm.trans key))
            (Option.some.inj (pushed.2.symm.trans value))
        have less := above last (by simp) entry mem_cons_self
        rw [same] at less
        exact lt_irrefl _ less
    rw [push]
    dsimp only
    rw [if_neg fresh, length_append, foldl_append]
    rfl

/-- Nothing is written just when nothing was pushed. -/
theorem finish_pushAll_eq_none_iff (encoding : RegistryEncoding) (blockBytes : Nat)
    (ascending : entries.Pairwise fun first second => toLex first < toLex second) :
    ((withBlockSize encoding blockBytes).pushAll entries).finish = none ↔ entries = [] := by
  cases encoding with
  | flat =>
    rw [pushAll_flat, finish]
    simp
  | blocked =>
    rw [pushAll_blocked blockBytes ascending, finish]
    simp

end RegistryWriter

section RoundTrip

variable {entries : List (NodeId × ScopeId)} {blockBytes : Nat} {data payload : List UInt8}
  {start stop : Nat} {blobType : String}

section Ascending

variable (ascending : entries.Pairwise fun first second => toLex first < toLex second)
  (roots : ∀ entry ∈ entries, entry.1 < 2 ^ 64) (scopes : ∀ entry ∈ entries, entry.2 < 2 ^ 32)

include ascending roots scopes

/-- A flat registry is read back. -/
theorem flat_answers
    (written : ((RegistryWriter.withBlockSize .flat blockBytes).pushAll entries).finish =
      some (blobType, payload))
    (sliced : slice data start stop = some payload) (mapped : data.length < 2 ^ 64) :
    ∃ table, RegistryTable.parse blobType data start stop = .ok (some table) ∧
      table.Answers data entries := by
  rw [RegistryWriter.pushAll_flat, RegistryWriter.finish] at written
  split at written
  · cases written
  · cases written
    obtain ⟨t, parsed, stores⟩ := FlatRegistry.parse_eq sliced mapped roots scopes
    refine ⟨.flat t, ?_, ?_, stores.iter_eq⟩
    · rw [RegistryTable.parse, if_pos rfl, parsed]
      rfl
    · apply stores.scopesFor_eq
      exact ascending.imp fun less => Prod.Lex.monotone_fst _ _ less.le

/-- A blocked registry is opened and answers from the records that were kept. -/
theorem blocked_answers
    (written : ((RegistryWriter.withBlockSize .blocked blockBytes).pushAll entries).finish =
      some (blobType, payload))
    (sliced : slice data start stop = some payload) (mapped : data.length < 2 ^ 64) :
    ∃ t, RegistryTable.parse blobType data start stop = .ok (some (.blocked t)) ∧
      (∀ root, BlockedRegistry.scopesFor t data root =
        .ok (valuesIn (kept (layout blockBytes (recordsOf entries))) root)) ∧
      BlockedIter.Yields t data .new
        ((kept (layout blockBytes (recordsOf entries))).flatMap entriesOf) := by
  rw [RegistryWriter.pushAll_blocked blockBytes ascending, RegistryWriter.finish] at written
  split at written
  · cases written
  · cases written
    have wrote := BlockWriter.wrote_entries blockBytes entries
    have ok := blocksOk_layout wrote (ascending.imp le_of_lt) roots
      fun entry member => (scopes entry member).trans (by decide)
    have small : ∀ record ∈ (blocksIn (layout blockBytes (recordsOf entries))).flatten,
        ∀ value ∈ record.2, value < 2 ^ 32 := by
      intro record member value held
      rw [flatten_blocksIn] at member
      exact scopes _ (mem_of_mem_recordsOf ((kept_layout _ _).subset member) held)
    rw [wrote.payload] at sliced
    obtain ⟨t, parsed, stores⟩ := BlockedTable.parse_eq sliced mapped ok BlockedRegistry.texts
    refine ⟨t, ?_, fun root => ?_, ?_⟩
    · rw [RegistryTable.parse, if_neg (by decide), if_pos rfl, BlockedRegistry.parse, parsed]
      rfl
    · rw [BlockedRegistry.scopesFor_eq mapped stores ok small, flatten_blocksIn]
    · rw [← flatten_blocksIn]
      exact BlockedIter.yields_blocks mapped stores ok small rfl rfl rfl

/-- Whichever encoding was chosen, a registry whose blocks can be counted is read back. -/
theorem registry_answers {encoding : RegistryEncoding} (counted : encoding = .blocked →
      ∀ block ∈ packs blockBytes (recordsOf entries), block.length < 2 ^ 32)
    (written : ((RegistryWriter.withBlockSize encoding blockBytes).pushAll entries).finish =
      some (blobType, payload))
    (sliced : slice data start stop = some payload) (mapped : data.length < 2 ^ 64) :
    ∃ table, RegistryTable.parse blobType data start stop = .ok (some table) ∧
      table.Answers data entries := by
  cases encoding with
  | flat => exact flat_answers ascending roots scopes written sliced mapped
  | blocked =>
    obtain ⟨t, parsed, found, yields⟩ :=
      blocked_answers ascending roots scopes written sliced mapped
    rw [(kept_layout_eq_iff _ _).mpr (counted rfl)] at found yields
    rw [entriesOf_recordsOf] at yields
    refine ⟨.blocked t, parsed, fun root => ?_, yields⟩
    rw [← valuesIn_recordsOf]
    exact found root

end Ascending

end RoundTrip

/-- Ascending registry entries, written with either encoding and any block size and
parsed at any place of a mapping, are read back just when no block of the blocked
encoding takes more records than its counter has bits for: the scopes of every root and
the iteration are those of the list. -/
theorem registry_reads_back_iff {entries : List (NodeId × ScopeId)}
    (ascending : entries.Pairwise fun first second => toLex first < toLex second)
    (roots : ∀ entry ∈ entries, entry.1 < 2 ^ 64) (scopes : ∀ entry ∈ entries, entry.2 < 2 ^ 32)
    (encoding : RegistryEncoding) (blockBytes : Nat) :
    (((RegistryWriter.withBlockSize encoding blockBytes).pushAll entries).finish = none ↔
        entries = []) ∧
      ∀ blobType payload before after,
        ((RegistryWriter.withBlockSize encoding blockBytes).pushAll entries).finish =
            some (blobType, payload) →
        (before ++ payload ++ after).length < 2 ^ 64 →
        ((∃ table, RegistryTable.parse blobType (before ++ payload ++ after) before.length
              (before.length + payload.length) = .ok (some table) ∧
            table.Answers (before ++ payload ++ after) entries) ↔
          (encoding = .blocked →
            ∀ block ∈ packs blockBytes (recordsOf entries), block.length < 2 ^ 32)) := by
  refine ⟨RegistryWriter.finish_pushAll_eq_none_iff encoding blockBytes ascending, ?_⟩
  intro blobType payload before after written mapped
  have sliced := slice_middle before payload after
  generalize before ++ payload ++ after = data at mapped sliced
  constructor
  · rintro ⟨table, parsed, -, iterates⟩ rfl
    obtain ⟨t, opened, -, yields⟩ :=
      blocked_answers ascending roots scopes written sliced mapped
    rw [opened] at parsed
    cases parsed
    exact (entries_kept_iff (ascending.imp le_of_lt) blockBytes).mp (yields.unique iterates)
  · intro counted
    exact registry_answers ascending roots scopes counted written sliced mapped

/-- Two roots in two blocks are read back between other bytes. -/
theorem registry_reads_back_iff_twoBlocks :
    ∃ blobType payload,
      ((RegistryWriter.withBlockSize .blocked 4).pushAll [(1, 0), (1, 3), (5, 2)]).finish =
        some (blobType, payload) ∧
      ∃ table, RegistryTable.parse blobType ([7] ++ payload ++ [9]) 1 (1 + payload.length) =
          .ok (some table) ∧
        table.Answers ([7] ++ payload ++ [9]) [(1, 0), (1, 3), (5, 2)] := by
  have some : ((RegistryWriter.withBlockSize .blocked 4).pushAll
      [(1, 0), (1, 3), (5, 2)]).finish.isSome := by decide +kernel
  have written := Option.some_get some
  refine ⟨_, _, written.symm, ?_⟩
  refine ((registry_reads_back_iff (by decide) (by decide) (by decide) .blocked 4).2 _ _ [7] [9]
    written.symm (by decide +kernel)).mpr fun _ => ?_
  exact packs_counted (by decide) _

/-- One root after the other, as many as the counter of a block has values, in one
block: the counter is back at zero, and the registry that is written has no root. -/
theorem full_counter_loses_registry :
    ∃ payload table,
      ((RegistryWriter.withBlockSize .blocked (2 ^ 34)).pushAll (singles (2 ^ 32))).finish =
        some (registryBlockedBlobType, payload) ∧
      RegistryTable.parse registryBlockedBlobType payload 0 payload.length = .ok (some table) ∧
      (1, 0) ∈ singles (2 ^ 32) ∧ table.scopesFor payload 1 = .ok [] := by
  -- the number of roots stays a variable, so that nothing unfolds the list
  obtain ⟨count, full⟩ : ∃ count, count = 2 ^ 32 := ⟨_, rfl⟩
  rw [← full]
  have lost := layout_singles_full (by omega : 3 * count ≤ 2 ^ 34) full
  have written : ((RegistryWriter.withBlockSize .blocked (2 ^ 34)).pushAll (singles count)).finish =
      some (registryBlockedBlobType, blocksPayload count []) := by
    rw [RegistryWriter.pushAll_blocked _ (singles_ascending count), RegistryWriter.finish]
    dsimp only
    rw [length_singles, if_neg (by omega),
      (BlockWriter.wrote_entries (2 ^ 34) (singles count)).payload, lost]
    rfl
  have short : (blocksPayload count []).length < 2 ^ 64 := by
    rw [length_blocksPayload]
    decide
  obtain ⟨t, parsed, found, -⟩ := blocked_answers (singles_ascending count)
    (fun entry member => (mem_singles member).2.1.trans_lt (by omega))
    (fun entry member => (mem_singles member).2.2.trans_lt (by decide)) written
    (slice_self _) short
  refine ⟨_, .blocked t, written, parsed, ?_, ?_⟩
  · exact mem_map.mpr ⟨0, mem_range.mpr (by omega), rfl⟩
  · have scopes := found 1
    rw [lost] at scopes
    exact scopes

end Blaze
