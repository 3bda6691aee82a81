import Blaze.Storage.BlockDecode
import Blaze.Storage.MappedTables
import Blaze.Storage.Members

/-!
# Reading a member index back

The pairs of parents and children that were written, in either encoding, are what a
limited lookup of children answers from.
-/

namespace Blaze

open List Bytes Fallible Search

variable {prev i stop cur : Nat} {values : List Nat} {first : Bool} {records : List BlockRecord}

/-! ## Lookups in blocks -/

namespace BlockedMembers

variable {data : List UInt8}

/-- The children of another parent are passed over. -/
theorem decodeChildren_miss (limit : Nat) (gapped : Gapped data prev i values) (taken : Nat)
    (out : List NodeId) :
    decodeChildren data false limit values.length i prev taken out =
      (out, some (i + (gapBytes prev values).length)) := by
  induction values generalizing prev i with
  | nil => rfl
  | cons value values ih =>
    obtain ⟨read, varint, sum, rest, place⟩ := gapped.read
    rw [length_cons, decodeChildren, if_neg (by simp), varint]
    dsimp only
    rw [sum, if_neg Bool.false_ne_true, ih rest, place]

/-- The children of the wanted parent are pushed until the limit is reached. -/
theorem decodeChildren_hit (limit : Nat) (gapped : Gapped data prev i values) (taken : Nat)
    (out : List NodeId) :
    (decodeChildren data true limit values.length i prev taken out).1 =
      out ++ values.take (limit - taken) := by
  induction values generalizing prev i taken out with
  | nil => simp [decodeChildren]
  | cons value values ih =>
    obtain ⟨read, varint, sum, rest, -⟩ := gapped.read
    rw [length_cons, decodeChildren]
    by_cases reached : taken ≥ limit
    · rw [if_pos ⟨rfl, reached⟩, Nat.sub_eq_zero_of_le reached, take_zero, append_nil]
    · have left : limit - taken = limit - (taken + 1) + 1 := by omega
      rw [if_neg fun stop => reached stop.2, varint]
      dsimp only
      rw [sum, if_pos rfl, ih rest, left, take_succ_cons, append_assoc]
      rfl

/-- Decoding records stops at the wanted parent or behind it. -/
theorem decodeRecords_eq (mapped : data.length < 2 ^ 64)
    (reading : Reading data stop first cur i records) (want : NodeId) (limit : Nat)
    (out : List NodeId) :
    decodeRecords data want stop limit records.length first cur i out =
      out ++ (valuesIn records want).take limit := by
  induction records generalizing first cur i with
  | nil => simp [decodeRecords, valuesIn]
  | cons record records ih =>
    have above := (pairwise_cons.mp reading.ordered.keys).1
    obtain ⟨k, j, key, count, gapped, rest⟩ := reading.readRecord mapped
    rw [length_cons, decodeRecords, key]
    dsimp only
    rw [count]
    dsimp only
    rw [valuesIn_cons]
    rcases Nat.lt_trichotomy record.1 want with before | rfl | behind
    · have other : (record.1 == want) = false := beq_false_of_ne before.ne
      have inside := (Nat.le_add_right _ _).trans rest.inside
      rw [if_neg before.not_gt, other, decodeChildren_miss limit gapped]
      dsimp only
      rw [if_neg Bool.false_ne_true, if_pos inside, ih rest, if_neg before.ne, nil_append]
    · have later : ∀ other ∈ records, other.1 ≠ record.1 := fun other member =>
        (above other member).ne'
      have pushed := decodeChildren_hit limit gapped 0 out
      rw [if_neg (lt_irrefl _), beq_self_eq_true, valuesIn_of_ne later, if_pos rfl,
        append_nil, ← Nat.sub_zero limit, ← pushed]
      rcases decodeChildren data true limit record.2.length j 0 0 out with ⟨out', _ | i⟩
      · rfl
      · rfl
    · have later : ∀ other ∈ records, other.1 ≠ want := fun other member =>
        (behind.trans (above other member)).ne'
      rw [if_pos behind, if_neg behind.ne', valuesIn_of_ne later, append_nil,
        take_nil, append_nil]

variable {t : BlockedTable} {blocks : List (List BlockRecord)}

/-- The first children of a parent, whether a block has it or none. -/
theorem childrenOf_eq (mapped : data.length < 2 ^ 64) (stores : t.Stores data blocks)
    (ok : BlocksOk blocks) (parent : NodeId) (limit : Nat) (out : List NodeId) :
    childrenOf t data parent limit out =
      .ok (out ++ (valuesIn blocks.flatten parent).take limit) := by
  obtain ⟨absent, present⟩ := ok.valuesIn_eq parent
  rw [childrenOf, stores.firstKeys]
  split
  · next zero => rw [zero, take_zero, append_nil]
  · dsimp only
    split
    · next none => rw [absent none, take_nil, append_nil]
    · next some =>
        obtain ⟨block, place, values⟩ := present some
        obtain ⟨records, reading⟩ := stores.reading ok place
        rw [decodeBlock, records, ok_bind, decodeRecords_eq mapped reading, values]

/-! ## Iteration over blocks -/

theorem eachChild_eq (parent : NodeId) (gapped : Gapped data prev i values) :
    eachChild data parent values.length i prev =
      (values.map fun value => (parent, value), some (i + (gapBytes prev values).length)) := by
  induction values generalizing prev i with
  | nil => rfl
  | cons value values ih =>
    obtain ⟨read, varint, sum, rest, place⟩ := gapped.read
    rw [length_cons, eachChild, varint]
    dsimp only
    rw [sum, ih rest, place]
    rfl

theorem eachRecord_eq (mapped : data.length < 2 ^ 64)
    (reading : Reading data stop first cur i records) :
    eachRecord data records.length first cur i = (records.flatMap entriesOf, true) := by
  induction records generalizing first cur i with
  | nil => rfl
  | cons record records ih =>
    obtain ⟨k, j, key, count, gapped, rest⟩ := reading.readRecord mapped
    rw [length_cons, eachRecord, key]
    dsimp only
    rw [count]
    dsimp only
    rw [eachChild_eq record.1 gapped]
    dsimp only
    rw [ih rest]
    rfl

theorem eachBlock_eq (mapped : data.length < 2 ^ 64) (stores : t.Stores data blocks)
    (ok : BlocksOk blocks) {behind : List (List BlockRecord)} (left : blocks.drop i = behind) :
    eachBlock t data behind.length i = behind.flatten.flatMap entriesOf := by
  induction behind generalizing i with
  | nil => rfl
  | cons block behind ih =>
    have place : blocks[i]? = some block := by
      rw [← head?_drop, left]
      rfl
    obtain ⟨records, reading⟩ := stores.reading ok place
    obtain ⟨bytes, sliced, count⟩ := slice_of_readLe records
    have next : blocks.drop (i + 1) = behind := by
      rw [← drop_drop, left]
      rfl
    rw [length_cons, eachBlock, sliced]
    dsimp only
    rw [count, eachRecord_eq mapped reading]
    dsimp only
    rw [if_pos rfl, ih next, flatten_cons, flatMap_append]

theorem forEach_eq (mapped : data.length < 2 ^ 64) (stores : t.Stores data blocks)
    (ok : BlocksOk blocks) : forEach t data = blocks.flatten.flatMap entriesOf := by
  rw [forEach, stores.firstKeys, length_map]
  exact eachBlock_eq mapped stores ok drop_zero

end BlockedMembers

/-! ## Either encoding -/

/-- A member index in whichever encoding its run was written with. -/
inductive MemberTable where
  | flat (t : MappedPairTable)
  | blocked (t : BlockedTable)

namespace MemberTable

/-- The blob type decides how a member index is parsed; other blobs are none. -/
def parse (blobType : String) (data : List UInt8) (start stop : Nat) :
    Except Fault (Option MemberTable) :=
  if blobType = sharedFlatBlobType ∨ blobType = overlayFlatBlobType then do
    .ok (some (.flat (← MappedPairTable.parse data start stop)))
  else if blobType = sharedBlockedBlobType ∨ blobType = overlayBlockedBlobType then do
    .ok (some (.blocked (← BlockedMembers.parse data start stop)))
  else
    .ok none

def childrenOf (data : List UInt8) (parent : NodeId) (limit : Nat) (out : List NodeId) :
    MemberTable → Except Fault (List NodeId)
  | .flat t => t.valuesFor data parent limit out
  | .blocked t => BlockedMembers.childrenOf t data parent limit out

/-- An index in blocks is iterated as a whole; the flat one has no such reader. -/
def Iterates (data : List UInt8) (pairs : List (NodeId × NodeId)) : MemberTable → Prop
  | .flat _ => True
  | .blocked t => BlockedMembers.forEach t data = pairs

/-- Limited lookups append the first children of the list of pairs, and an iteration
gives the list. -/
def Answers (table : MemberTable) (data : List UInt8) (pairs : List (NodeId × NodeId)) : Prop :=
  (∀ parent limit out, table.childrenOf data parent limit out =
    .ok (out ++ ((pairs.filter fun pair => pair.1 = parent).map Prod.snd).take limit)) ∧
    table.Iterates data pairs

end MemberTable

namespace MemberWriter

/-- The writer after pairs. -/
def pushAll (w : MemberWriter) (pairs : List (NodeId × NodeId)) : MemberWriter :=
  pairs.foldl (fun w pair => w.push pair.1 pair.2) w

theorem pushAll_flat (tier : MemberTier) (blockBytes : Nat) (pairs : List (NodeId × NodeId)) :
    (withBlockSize .flat tier blockBytes).pushAll pairs =
      ⟨.flat, tier, pairs.length, pairs.flatMap (entryBytes 8), BlockWriter.new blockBytes⟩ := by
  induction pairs using List.reverseRecOn with
  | nil => rfl
  | append_singleton pairs pair ih =>
    rw [pushAll, foldl_append]
    change ((withBlockSize .flat tier blockBytes).pushAll pairs).push pair.1 pair.2 = _
    rw [ih]
    simp [push, entryBytes]

theorem pushAll_blocked (tier : MemberTier) (blockBytes : Nat) (pairs : List (NodeId × NodeId)) :
    (withBlockSize .blocked tier blockBytes).pushAll pairs =
      ⟨.blocked, tier, pairs.length, [], pairs.foldl (fun w pair => w.push pair.1 pair.2)
        (BlockWriter.new blockBytes)⟩ := by
  induction pairs using List.reverseRecOn with
  | nil => rfl
  | append_singleton pairs pair ih =>
    rw [pushAll, foldl_append]
    change ((withBlockSize .blocked tier blockBytes).pushAll pairs).push pair.1 pair.2 = _
    rw [ih, length_append, foldl_append]
    rfl

theorem finish_pushAll_eq_none_iff (encoding : MemberEncoding) (tier : MemberTier)
    (blockBytes : Nat) (pairs : List (NodeId × NodeId)) :
    ((withBlockSize encoding tier blockBytes).pushAll pairs).finish = none ↔ pairs = [] := by
  cases encoding with
  | flat =>
    rw [pushAll_flat, finish]
    cases tier <;> simp
  | blocked =>
    rw [pushAll_blocked, finish]
    cases tier <;> simp

end MemberWriter

section RoundTrip

variable {pairs : List (NodeId × NodeId)} {tier : MemberTier} {blockBytes : Nat}
  {data payload : List UInt8} {start stop : Nat} {blobType : String}

section Ascending

variable (ascending : pairs.Pairwise fun first second => toLex first ≤ toLex second)
  (parents : ∀ pair ∈ pairs, pair.1 < 2 ^ 64) (children : ∀ pair ∈ pairs, pair.2 < 2 ^ 64)

include ascending parents children

/-- A flat member index is read back. -/
theorem flatMembers_answers
    (written : ((MemberWriter.withBlockSize .flat tier blockBytes).pushAll pairs).finish =
      some (blobType, payload))
    (sliced : slice data start stop = some payload) (mapped : data.length < 2 ^ 64) :
    ∃ table, MemberTable.parse blobType data start stop = .ok (some table) ∧
      table.Answers data pairs := by
  rw [MemberWriter.pushAll_flat, MemberWriter.finish] at written
  split at written
  · cases written
  · have bytes : payload = tableBytes 8 pairs ∧
        (blobType = sharedFlatBlobType ∨ blobType = overlayFlatBlobType) := by
      cases tier with
      | shared =>
        cases written
        exact ⟨rfl, Or.inl rfl⟩
      | overlay =>
        cases written
        exact ⟨rfl, Or.inr rfl⟩
    rw [bytes.1] at sliced
    have stores := MappedPairTable.stores_of_slice sliced mapped parents children
    refine ⟨.flat ⟨start + 8, pairs.length, none⟩, ?_, fun parent limit out => ?_, trivial⟩
    · rw [MemberTable.parse, if_pos bytes.2, MappedPairTable.parse_eq sliced mapped]
      rfl
    · apply stores.valuesFor_eq
      exact ascending.imp fun le => Prod.Lex.monotone_fst _ _ le

/-- A blocked member index is opened and answers from the records that were kept. -/
theorem blockedMembers_answers
    (written : ((MemberWriter.withBlockSize .blocked tier blockBytes).pushAll pairs).finish =
      some (blobType, payload))
    (sliced : slice data start stop = some payload) (mapped : data.length < 2 ^ 64) :
    ∃ t, MemberTable.parse blobType data start stop = .ok (some (.blocked t)) ∧
      (∀ parent limit out, BlockedMembers.childrenOf t data parent limit out =
        .ok (out ++
          (valuesIn (kept (layout blockBytes (recordsOf pairs))) parent).take limit)) ∧
      BlockedMembers.forEach t data =
        (kept (layout blockBytes (recordsOf pairs))).flatMap entriesOf := by
  rw [MemberWriter.pushAll_blocked, MemberWriter.finish] at written
  have wrote := BlockWriter.wrote_entries blockBytes pairs
  have ok := blocksOk_layout wrote ascending parents children
  split at written
  · cases written
  · have bytes : payload = blocksPayload pairs.length
          (blocksIn (layout blockBytes (recordsOf pairs))) ∧
        (blobType = sharedBlockedBlobType ∨ blobType = overlayBlockedBlobType) := by
      rw [← wrote.payload]
      cases tier with
      | shared =>
        cases written
        exact ⟨rfl, Or.inl rfl⟩
      | overlay =>
        cases written
        exact ⟨rfl, Or.inr rfl⟩
    have other : ¬ (blobType = sharedFlatBlobType ∨ blobType = overlayFlatBlobType) := by
      rcases bytes.2 with rfl | rfl <;> decide
    rw [bytes.1] at sliced
    obtain ⟨t, parsed, stores⟩ := BlockedTable.parse_eq sliced mapped ok BlockedMembers.texts
    refine ⟨t, ?_, fun parent limit out => ?_, ?_⟩
    · rw [MemberTable.parse, if_neg other, if_pos bytes.2, BlockedMembers.parse, parsed]
      rfl
    · rw [BlockedMembers.childrenOf_eq mapped stores ok, flatten_blocksIn]
    · rw [BlockedMembers.forEach_eq mapped stores ok, flatten_blocksIn]

/-- Whichever encoding was chosen, an index whose blocks can be counted is read back. -/
theorem members_answer {encoding : MemberEncoding} (counted : encoding = .blocked →
      ∀ block ∈ packs blockBytes (recordsOf pairs), block.length < 2 ^ 32)
    (written : ((MemberWriter.withBlockSize encoding tier blockBytes).pushAll pairs).finish =
      some (blobType, payload))
    (sliced : slice data start stop = some payload) (mapped : data.length < 2 ^ 64) :
    ∃ table, MemberTable.parse blobType data start stop = .ok (some table) ∧
      table.Answers data pairs := by
  cases encoding with
  | flat => exact flatMembers_answers ascending parents children written sliced mapped
  | blocked =>
    obtain ⟨t, parsed, found, listed⟩ :=
      blockedMembers_answers ascending parents children written sliced mapped
    rw [(kept_layout_eq_iff _ _).mpr (counted rfl)] at found listed
    rw [entriesOf_recordsOf] at listed
    refine ⟨.blocked t, parsed, fun parent limit out => ?_, listed⟩
    rw [← valuesIn_recordsOf]
    exact found parent limit out

end Ascending

end RoundTrip

/-- Ascending pairs of parent and child, written with either encoding and any block size
and parsed at any place of a mapping, are read back just when no block of the blocked
encoding takes more records than its counter has bits for: every limited lookup appends
the first children of its parent, and the iteration over blocks gives the list. -/
theorem members_read_back_iff {pairs : List (NodeId × NodeId)}
    (ascending : pairs.Pairwise fun first second => toLex first < toLex second)
    (parents : ∀ pair ∈ pairs, pair.1 < 2 ^ 64) (children : ∀ pair ∈ pairs, pair.2 < 2 ^ 64)
    (encoding : MemberEncoding) (tier : MemberTier) (blockBytes : Nat) :
    (((MemberWriter.withBlockSize encoding tier blockBytes).pushAll pairs).finish = none ↔
        pairs = []) ∧
      ∀ blobType payload before after,
        ((MemberWriter.withBlockSize encoding tier blockBytes).pushAll pairs).finish =
            some (blobType, payload) →
        (before ++ payload ++ after).length < 2 ^ 64 →
        ((∃ table, MemberTable.parse blobType (before ++ payload ++ after) before.length
              (before.length + payload.length) = .ok (some table) ∧
            table.Answers (before ++ payload ++ after) pairs) ↔
          (encoding = .blocked →
            ∀ block ∈ packs blockBytes (recordsOf pairs), block.length < 2 ^ 32)) := by
  refine ⟨MemberWriter.finish_pushAll_eq_none_iff encoding tier blockBytes pairs, ?_⟩
  intro blobType payload before after written mapped
  have sliced := slice_middle before payload after
  generalize before ++ payload ++ after = data at mapped sliced
  constructor
  · rintro ⟨table, parsed, -, iterates⟩ rfl
    obtain ⟨t, opened, -, listed⟩ :=
      blockedMembers_answers (ascending.imp le_of_lt) parents children written sliced mapped
    rw [opened] at parsed
    cases parsed
    exact (entries_kept_iff (ascending.imp le_of_lt) blockBytes).mp (listed.symm.trans iterates)
  · intro counted
    exact members_answer (ascending.imp le_of_lt) parents children counted written sliced mapped

/-- A parent whose children fill more than a block, read between other bytes. -/
theorem members_read_back_iff_hub :
    ∃ blobType payload,
      ((MemberWriter.withBlockSize .blocked .shared 4).pushAll
        [(2, 3), (2, 5), (2, 300), (2, 301), (4, 6)]).finish = some (blobType, payload) ∧
      ∃ table, MemberTable.parse blobType ([7] ++ payload ++ [9]) 1 (1 + payload.length) =
          .ok (some table) ∧
        table.Answers ([7] ++ payload ++ [9])
          [(2, 3), (2, 5), (2, 300), (2, 301), (4, 6)] := by
  have some : ((MemberWriter.withBlockSize .blocked .shared 4).pushAll
      [(2, 3), (2, 5), (2, 300), (2, 301), (4, 6)]).finish.isSome := by decide +kernel
  have written := Option.some_get some
  refine ⟨_, _, written.symm, ?_⟩
  refine ((members_read_back_iff (by decide) (by decide) (by decide) .blocked .shared 4).2 _ _ [7]
    [9] written.symm (by decide +kernel)).mpr fun _ => ?_
  exact packs_counted (by decide) _

/-- One parent after the other, as many as the counter of a block has values, in one
block: the counter is back at zero, and the index that is written has no parent. -/
theorem full_counter_loses_members :
    ∃ payload table,
      ((MemberWriter.withBlockSize .blocked .shared (2 ^ 34)).pushAll (singles (2 ^ 32))).finish =
        some (sharedBlockedBlobType, payload) ∧
      (∀ pair ∈ singles (2 ^ 32), pair.1 ≠ pair.2) ∧ (1, 0) ∈ singles (2 ^ 32) ∧
      MemberTable.parse sharedBlockedBlobType payload 0 payload.length = .ok (some table) ∧
      table.childrenOf payload 1 1 [] = .ok [] := by
  -- the number of parents stays a variable, so that nothing unfolds the list
  obtain ⟨count, full⟩ : ∃ count, count = 2 ^ 32 := ⟨_, rfl⟩
  rw [← full]
  have lost := layout_singles_full (by omega : 3 * count ≤ 2 ^ 34) full
  have written : ((MemberWriter.withBlockSize .blocked .shared (2 ^ 34)).pushAll
      (singles count)).finish = some (sharedBlockedBlobType, blocksPayload count []) := by
    rw [MemberWriter.pushAll_blocked, MemberWriter.finish]
    dsimp only
    rw [length_singles, if_neg (by omega),
      (BlockWriter.wrote_entries (2 ^ 34) (singles count)).payload, lost]
    rfl
  have short : (blocksPayload count []).length < 2 ^ 64 := by
    rw [length_blocksPayload]
    decide
  obtain ⟨t, parsed, found, -⟩ := blockedMembers_answers ((singles_ascending count).imp le_of_lt)
    (fun pair member => (mem_singles member).2.1.trans_lt (by omega))
    (fun pair member => (mem_singles member).2.2.trans_lt (by decide)) written
    (slice_self _) short
  refine ⟨_, .blocked t, written, fun pair member => ?_, ?_, parsed, ?_⟩
  · have bounds := mem_singles member
    omega
  · exact mem_map.mpr ⟨0, mem_range.mpr (by omega), rfl⟩
  · have children := found 1 1 []
    rw [lost] at children
    exact children

end Blaze
