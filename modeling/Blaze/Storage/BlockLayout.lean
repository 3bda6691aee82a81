import Blaze.Lib.ByteReader
import Blaze.Storage.Registry

/-!
# The layout of offset-indexed blocks

The blocked encodings group entries with the same key into records and pack the
records into blocks, each of which starts with the key of its first record.  This
file says which bytes stand for a list of blocks, and proves that the writer
produces them for the records of the entries it was given.
-/

namespace Blaze

open List Bytes

variable {blockBytes count : Nat} {records first second : List BlockRecord}
  {entries : List (Nat × Nat)}

/-- A key with its values. -/
abbrev BlockRecord := Nat × List Nat

/-! ## Bytes of a block -/

/-- Each value as the gap from the one before it. -/
def gapBytes : Nat → List Nat → List UInt8
  | _, [] => []
  | prev, value :: values => putVarint (value - prev) ++ gapBytes value values

/-- The records after the first one, each with the gap from the key before it. -/
def tailBytes : Nat → List BlockRecord → List UInt8
  | _, [] => []
  | prev, record :: records =>
      putVarint (record.1 - prev) ++ (BlockWriter.record record.2 ++ tailBytes record.1 records)

/-- The records of a block; the key of the first one is left to the header. -/
def bodyBytes : List BlockRecord → List UInt8
  | [] => []
  | record :: records => BlockWriter.record record.2 ++ tailBytes record.1 records

def headKey (block : List BlockRecord) : Nat :=
  (block.head?.map Prod.fst).getD 0

def lastKey (block : List BlockRecord) : Nat :=
  (block.getLast?.map Prod.fst).getD 0

def encodeBlock (block : List BlockRecord) : List UInt8 :=
  putLe 8 (headKey block) ++ putLe 4 block.length ++ bodyBytes block

/-- Where each of the blocks starts. -/
def blockOffsets : Nat → List (List BlockRecord) → List Nat
  | _, [] => []
  | start, block :: blocks => start :: blockOffsets (start + (encodeBlock block).length) blocks

/-- The entry count, the block count, where the blocks start and end, and the blocks. -/
def blocksPayload (count : Nat) (blocks : List (List BlockRecord)) : List UInt8 :=
  putLe 8 count ++ putLe 8 blocks.length ++ (blockOffsets 0 blocks).flatMap (putLe 8) ++
    putLe 8 (blocks.flatMap encodeBlock).length ++ blocks.flatMap encodeBlock

theorem record_eq (values : List Nat) :
    BlockWriter.record values = putVarint values.length ++ gapBytes 0 values := by
  have gaps : ∀ (out : List UInt8) (prev : Nat),
      (values.foldl (fun out value => (out.1 ++ putVarint (value - out.2), value))
        (out, prev)).1 = out ++ gapBytes prev values := by
    induction values with
    | nil =>
      intro out prev
      exact (append_nil out).symm
    | cons value values ih =>
      intro out prev
      rw [foldl_cons, ih, gapBytes, append_assoc]
  rw [BlockWriter.record, gaps, nil_append]

theorem tailBytes_concat (prev : Nat) (records : List BlockRecord) (record : BlockRecord) :
    tailBytes prev (records ++ [record]) = tailBytes prev records ++
      (putVarint (record.1 - (records.getLast?.map Prod.fst).getD prev) ++
        BlockWriter.record record.2) := by
  induction records generalizing prev with
  | nil => simp [tailBytes]
  | cons first records ih =>
    rw [cons_append, tailBytes, ih, tailBytes, append_assoc, append_assoc]
    cases records <;> simp [getLast?_cons]

theorem bodyBytes_concat {block : List BlockRecord} (nonempty : block ≠ []) (record : BlockRecord) :
    bodyBytes (block ++ [record]) =
      bodyBytes block ++ putVarint (record.1 - lastKey block) ++ BlockWriter.record record.2 := by
  cases block with
  | nil => exact absurd rfl nonempty
  | cons first records =>
    rw [cons_append, bodyBytes, bodyBytes, tailBytes_concat, lastKey]
    cases records <;> simp [getLast?_cons, append_assoc]

theorem length_bodyBytes_concat_ge (block : List BlockRecord) (record : BlockRecord) :
    (bodyBytes block).length ≤ (bodyBytes (block ++ [record])).length := by
  by_cases empty : block = []
  · subst empty
    exact Nat.zero_le _
  · rw [bodyBytes_concat empty, append_assoc, length_append]
    exact Nat.le_add_right _ _

/-- Every record takes some bytes. -/
theorem length_le_bodyBytes (block : List BlockRecord) :
    block.length ≤ (bodyBytes block).length := by
  induction block using List.reverseRecOn with
  | nil => exact Nat.zero_le _
  | append_singleton block record ih =>
    have some : 1 ≤ (BlockWriter.record record.2).length := by
      rw [record_eq, length_append]
      exact (length_pos_iff.mpr (putVarint_ne_nil _)).trans_le (Nat.le_add_right _ _)
    by_cases empty : block = []
    · subst empty
      change 1 ≤ (BlockWriter.record record.2 ++ []).length
      rwa [append_nil]
    · rw [bodyBytes_concat empty, length_append, length_append, length_append,
        length_singleton]
      omega

theorem blockOffsets_concat (start : Nat) (blocks : List (List BlockRecord))
    (block : List BlockRecord) :
    blockOffsets start (blocks ++ [block]) =
      blockOffsets start blocks ++ [start + (blocks.flatMap encodeBlock).length] := by
  induction blocks generalizing start with
  | nil => rfl
  | cons first blocks ih =>
    rw [cons_append, blockOffsets, ih, blockOffsets, flatMap_cons,
      length_append, Nat.add_assoc]
    rfl

theorem length_blockOffsets (start : Nat) (blocks : List (List BlockRecord)) :
    (blockOffsets start blocks).length = blocks.length := by
  induction blocks generalizing start with
  | nil => rfl
  | cons block blocks ih =>
    rw [blockOffsets, length_cons, ih, length_cons]

/-! ## Packing records into blocks -/

/-- Add a record to the block being filled, or start a new block when it would take
too many bytes. -/
def packRecord (blockBytes : Nat) (packed : List (List BlockRecord) × List BlockRecord)
    (record : BlockRecord) : List (List BlockRecord) × List BlockRecord :=
  if packed.2 = [] then
    (packed.1, [record])
  else if (bodyBytes (packed.2 ++ [record])).length ≤ blockBytes then
    (packed.1, packed.2 ++ [record])
  else
    (packed.1 ++ [packed.2], [record])

def packInto (blockBytes : Nat) (records : List BlockRecord) :
    List (List BlockRecord) × List BlockRecord :=
  records.foldl (packRecord blockBytes) ([], [])

/-- The blocks that records take by their sizes alone, the one being filled last. -/
def packs (blockBytes : Nat) (records : List BlockRecord) : List (List BlockRecord) :=
  (packInto blockBytes records).1 ++ [(packInto blockBytes records).2]

/-- What the writer makes of a record: a block whose record count comes back to zero
is taken for an empty one, and its records are lost. -/
def layRecord (blockBytes : Nat) (laid : List (List BlockRecord) × List BlockRecord)
    (record : BlockRecord) : List (List BlockRecord) × List BlockRecord :=
  let packed := packRecord blockBytes laid record
  (packed.1, if packed.2.length = 2 ^ 32 then [] else packed.2)

/-- The closed blocks and the block being filled. -/
def layout (blockBytes : Nat) (records : List BlockRecord) :
    List (List BlockRecord) × List BlockRecord :=
  records.foldl (layRecord blockBytes) ([], [])

/-- The records that a layout keeps. -/
def kept (laid : List (List BlockRecord) × List BlockRecord) : List BlockRecord :=
  laid.1.flatten ++ laid.2

/-- All blocks of a layout; one without records is not written. -/
def blocksIn (laid : List (List BlockRecord) × List BlockRecord) : List (List BlockRecord) :=
  laid.1 ++ [laid.2].filter (· ≠ [])

theorem flatten_blocksIn (laid : List (List BlockRecord) × List BlockRecord) :
    (blocksIn laid).flatten = kept laid := by
  rw [blocksIn, kept, flatten_append]
  by_cases empty : laid.2 = []
  · simp [empty]
  · simp [empty]

theorem layout_concat (blockBytes : Nat) (records : List BlockRecord) (record : BlockRecord) :
    layout blockBytes (records ++ [record]) =
      layRecord blockBytes (layout blockBytes records) record := by
  rw [layout, foldl_append]
  rfl

theorem packInto_concat (blockBytes : Nat) (records : List BlockRecord) (record : BlockRecord) :
    packInto blockBytes (records ++ [record]) =
      packRecord blockBytes (packInto blockBytes records) record := by
  rw [packInto, foldl_append]
  rfl

theorem kept_packRecord (blockBytes : Nat) (packed : List (List BlockRecord) × List BlockRecord)
    (record : BlockRecord) :
    kept (packRecord blockBytes packed record) = kept packed ++ [record] := by
  unfold packRecord kept
  split
  · next empty => rw [empty, append_nil]
  · split
    · exact (append_assoc _ _ _).symm
    · rw [flatten_append, flatten_singleton]

theorem kept_packInto (blockBytes : Nat) (records : List BlockRecord) :
    kept (packInto blockBytes records) = records := by
  induction records using List.reverseRecOn with
  | nil => rfl
  | append_singleton records record ih =>
    rw [packInto_concat, kept_packRecord, ih]

theorem kept_layRecord (blockBytes : Nat) (laid : List (List BlockRecord) × List BlockRecord)
    (record : BlockRecord) :
    (kept (layRecord blockBytes laid record)).Sublist (kept laid ++ [record]) := by
  rw [← kept_packRecord blockBytes]
  unfold layRecord kept
  dsimp only
  split
  · exact List.Sublist.append_left (nil_sublist _) _
  · exact List.Sublist.refl _

/-- A layout keeps some of the records, in their order. -/
theorem kept_layout (blockBytes : Nat) (records : List BlockRecord) :
    (kept (layout blockBytes records)).Sublist records := by
  induction records using List.reverseRecOn with
  | nil => exact List.Sublist.refl _
  | append_singleton records record ih =>
    rw [layout_concat]
    exact (kept_layRecord blockBytes _ record).trans (ih.append_right [record])

/-- A block that is being filled never loses a record by its size. -/
theorem packs_concat_long (long : ∃ block ∈ packs blockBytes records, count ≤ block.length)
    (record : BlockRecord) :
    ∃ block ∈ packs blockBytes (records ++ [record]), count ≤ block.length := by
  obtain ⟨block, member, enough⟩ := long
  unfold packs at member ⊢
  rw [packInto_concat, packRecord]
  rcases mem_append.mp member with closed | last
  · refine ⟨block, mem_append_left _ ?_, enough⟩
    split
    · exact closed
    · split
      · exact closed
      · exact mem_append_left _ closed
  · rw [mem_singleton.mp last] at enough
    split
    · next empty =>
        rw [empty] at enough
        exact ⟨[record], by simp, enough.trans (Nat.zero_le _)⟩
    · split
      · exact ⟨_, mem_append_right _ mem_cons_self, enough.trans (by simp)⟩
      · exact ⟨_, mem_append_left _ (mem_append_right _ mem_cons_self), enough⟩

/-- A record makes the last block longer by one at most, and leaves the others. -/
theorem packRecord_grows (blockBytes : Nat) (packed : List (List BlockRecord) × List BlockRecord)
    (record : BlockRecord) :
    (packRecord blockBytes packed record).2.length ≤ packed.2.length + 1 ∧
      ∀ block ∈ (packRecord blockBytes packed record).1, block ∈ packed.1 ++ [packed.2] := by
  unfold packRecord
  split
  · exact ⟨Nat.le_add_left _ _, fun block member => mem_append_left _ member⟩
  · split
    · exact ⟨by simp, fun block member => mem_append_left _ member⟩
    · exact ⟨Nat.le_add_left _ _, fun block member => member⟩

/-- The layout is the packing by size until a block has too many records to count;
from then on records are missing. -/
theorem layout_cases (blockBytes : Nat) (records : List BlockRecord) :
    (layout blockBytes records = packInto blockBytes records ∧
        ∀ block ∈ packs blockBytes records, block.length < 2 ^ 32) ∨
      ((kept (layout blockBytes records)).length < records.length ∧
        ∃ block ∈ packs blockBytes records, 2 ^ 32 ≤ block.length) := by
  induction records using List.reverseRecOn with
  | nil =>
    left
    refine ⟨rfl, fun block member => ?_⟩
    rw [mem_singleton.mp member]
    exact (by decide : 0 < 2 ^ 32)
  | append_singleton records record ih =>
    rcases ih with ⟨same, short⟩ | ⟨missing, long⟩
    · have step := packRecord_grows blockBytes (packInto blockBytes records) record
      have total := kept_packInto blockBytes (records ++ [record])
      rw [layout_concat, layRecord, same]
      unfold packs
      rw [packInto_concat] at total ⊢
      generalize packRecord blockBytes (packInto blockBytes records) record = packed at step total
      -- the last block is the only one that has grown
      by_cases full : packed.2.length = 2 ^ 32
      · right
        refine ⟨?_, packed.2, mem_append_right _ mem_cons_self, full.ge⟩
        rw [← total]
        simp [kept, full]
      · left
        refine ⟨by rw [if_neg full], fun block member => ?_⟩
        rcases mem_append.mp member with closed | last
        · exact short block (step.2 block closed)
        · have filling := short _ (mem_append_right _ mem_cons_self)
          rw [mem_singleton.mp last]
          omega
    · right
      refine ⟨?_, packs_concat_long long record⟩
      have step := (kept_layRecord blockBytes (layout blockBytes records) record).length_le
      rw [layout_concat]
      rw [length_append] at step ⊢
      exact step.trans_lt (Nat.add_lt_add_right missing 1)

/-- No record is lost just when no block that the sizes make has too many records to
count. -/
theorem kept_layout_eq_iff (blockBytes : Nat) (records : List BlockRecord) :
    kept (layout blockBytes records) = records ↔
      ∀ block ∈ packs blockBytes records, block.length < 2 ^ 32 := by
  rcases layout_cases blockBytes records with ⟨same, short⟩ | ⟨missing, long⟩
  · rw [same, kept_packInto]
    exact ⟨fun _ => short, fun _ => rfl⟩
  · constructor
    · intro all
      rw [all] at missing
      exact absurd missing (lt_irrefl _)
    · intro short
      obtain ⟨block, member, enough⟩ := long
      exact absurd (short block member) (not_lt.mpr enough)

/-- Records that fit one block fill it, as long as they can be counted. -/
theorem layout_of_fits (fits : (bodyBytes records).length ≤ blockBytes)
    (counted : records.length < 2 ^ 32) : layout blockBytes records = ([], records) := by
  induction records using List.reverseRecOn with
  | nil => rfl
  | append_singleton records record ih =>
    by_cases empty : records = []
    · subst empty
      rfl
    · have shorter := length_bodyBytes_concat_ge records record
      rw [length_append, length_singleton] at counted
      rw [layout_concat, ih (shorter.trans fits) (Nat.lt_of_succ_lt counted),
        layRecord, packRecord, if_neg empty, if_pos fits]
      dsimp only
      rw [length_append, length_singleton, if_neg counted.ne]

/-- Records that fill the counter of one block are lost, all of them. -/
theorem layout_of_full (fits : (bodyBytes records).length ≤ blockBytes)
    (full : records.length = 2 ^ 32) : layout blockBytes records = ([], []) := by
  induction records using List.reverseRecOn with
  | nil => cases full
  | append_singleton records record ih =>
    rw [length_append, length_singleton] at full
    have some : records ≠ [] := by
      rintro rfl
      cases full
    have shorter := length_bodyBytes_concat_ge records record
    rw [layout_concat, layout_of_fits (shorter.trans fits) (by omega), layRecord, packRecord,
      if_neg some, if_pos fits]
    dsimp only
    rw [length_append, length_singleton, if_pos full]

/-- Blocks of few bytes have few records. -/
theorem packs_counted (small : blockBytes < 2 ^ 32) (records : List BlockRecord) :
    ∀ block ∈ packs blockBytes records, block.length < 2 ^ 32 := by
  induction records using List.reverseRecOn with
  | nil =>
    intro block member
    rw [mem_singleton.mp member]
    exact (by decide : 0 < 2 ^ 32)
  | append_singleton records record ih =>
    intro block member
    have others := (packRecord_grows blockBytes (packInto blockBytes records) record).2
    rw [packs, packInto_concat] at member
    rcases mem_append.mp member with closed | last
    · exact ih block (others block closed)
    · rw [mem_singleton.mp last, packRecord]
      split
      · exact (by decide : 1 < 2 ^ 32)
      · split
        · next fits => exact ((length_le_bodyBytes _).trans fits).trans_lt small
        · exact (by decide : 1 < 2 ^ 32)

/-! ## Records of entries -/

/-- Add an entry to the last record, or as a new one. -/
def addEntry (records : List BlockRecord) (entry : Nat × Nat) : List BlockRecord :=
  match records.getLast? with
  | none => [(entry.1, [entry.2])]
  | some last =>
      if last.1 = entry.1 then records.dropLast ++ [(entry.1, last.2 ++ [entry.2])]
      else records ++ [(entry.1, [entry.2])]

/-- The entries with one key after the other, as one record for each key. -/
def recordsOf (entries : List (Nat × Nat)) : List BlockRecord :=
  entries.foldl addEntry []

def entriesOf (record : BlockRecord) : List (Nat × Nat) :=
  record.2.map fun value => (record.1, value)

/-- The values of a key. -/
def valuesIn (records : List BlockRecord) (key : Nat) : List Nat :=
  records.flatMap fun record => if record.1 = key then record.2 else []

/-- The keys ascend, and under each key there are values that do not descend. -/
structure RecordsOrdered (records : List BlockRecord) : Prop where
  keys : records.Pairwise fun first second => first.1 < second.1
  values : ∀ record ∈ records, record.2.Pairwise (· ≤ ·)
  nonempty : ∀ record ∈ records, record.2 ≠ []

theorem entriesOf_addEntry (records : List BlockRecord) (entry : Nat × Nat) :
    (addEntry records entry).flatMap entriesOf = records.flatMap entriesOf ++ [entry] := by
  unfold addEntry
  cases last : records.getLast? with
  | none =>
    rw [getLast?_eq_none_iff.mp last]
    rfl
  | some record =>
    obtain ⟨init, rfl⟩ := getLast?_eq_some_iff.mp last
    dsimp only
    split
    · next same => simp [entriesOf, same]
    · simp [entriesOf]

theorem entriesOf_recordsOf (entries : List (Nat × Nat)) :
    (recordsOf entries).flatMap entriesOf = entries := by
  induction entries using List.reverseRecOn with
  | nil => rfl
  | append_singleton entries entry ih =>
    rw [recordsOf, foldl_append, foldl_cons, foldl_nil, entriesOf_addEntry]
    change (recordsOf entries).flatMap entriesOf ++ [entry] = _
    rw [ih]

theorem valuesIn_recordsOf (entries : List (Nat × Nat)) (key : Nat) :
    valuesIn (recordsOf entries) key =
      (entries.filter fun entry => entry.1 = key).map Prod.snd := by
  conv_rhs => rw [← entriesOf_recordsOf entries]
  rw [valuesIn, filter_flatMap, map_flatMap]
  apply flatMap_congr
  intro record _
  split
  · next same => simp [entriesOf, same, filter_map, Function.comp_def]
  · next other => simp [entriesOf, other]

theorem RecordsOrdered.concat (ordered : RecordsOrdered records) {record : BlockRecord}
    (above : ∀ other ∈ records, other.1 < record.1) (values : record.2.Pairwise (· ≤ ·))
    (nonempty : record.2 ≠ []) :
    RecordsOrdered (records ++ [record]) where
  keys := by
    refine pairwise_append.mpr
      ⟨ordered.keys, pairwise_singleton _ _, fun other inside last isLast => ?_⟩
    rw [mem_singleton.mp isLast]
    exact above other inside
  values := by
    intro other inside
    rcases mem_append.mp inside with old | isLast
    · exact ordered.values other old
    · rw [mem_singleton.mp isLast]
      exact values
  nonempty := by
    intro other inside
    rcases mem_append.mp inside with old | isLast
    · exact ordered.nonempty other old
    · rw [mem_singleton.mp isLast]
      exact nonempty

theorem RecordsOrdered.of_append (ordered : RecordsOrdered (first ++ second)) :
    RecordsOrdered first ∧ RecordsOrdered second :=
  have keys := pairwise_append.mp ordered.keys
  ⟨⟨keys.1, fun record member => ordered.values record (mem_append_left _ member),
      fun record member => ordered.nonempty record (mem_append_left _ member)⟩,
    ⟨keys.2.1, fun record member => ordered.values record (mem_append_right _ member),
      fun record member => ordered.nonempty record (mem_append_right _ member)⟩⟩

/-- An entry that no other is above goes to the last record or starts a new one. -/
theorem RecordsOrdered.addEntry (ordered : RecordsOrdered records) {entry : Nat × Nat}
    (above : ∀ earlier ∈ records.flatMap entriesOf, toLex earlier ≤ toLex entry) :
    RecordsOrdered (addEntry records entry) := by
  unfold Blaze.addEntry
  cases last : records.getLast? with
  | none => exact ⟨pairwise_singleton _ _, by simp, by simp⟩
  | some record =>
    obtain ⟨init, rfl⟩ := getLast?_eq_some_iff.mp last
    have member : record ∈ init ++ [record] := mem_append_right _ mem_cons_self
    have below : ∀ value ∈ record.2,
        record.1 < entry.1 ∨ record.1 = entry.1 ∧ value ≤ entry.2 := by
      intro value held
      have less := above (record.1, value)
        (mem_flatMap.mpr ⟨record, member, mem_map.mpr ⟨value, held, rfl⟩⟩)
      rwa [Prod.Lex.toLex_le_toLex] at less
    have others : ∀ other ∈ init, other.1 < record.1 := fun other inside =>
      (pairwise_append.mp ordered.keys).2.2 other inside record mem_cons_self
    dsimp only
    rw [dropLast_concat]
    split
    · next same =>
        apply ordered.of_append.1.concat
        · rw [← same]
          exact others
        · refine pairwise_append.mpr ⟨ordered.values record member,
            pairwise_singleton _ _, fun value held other isNew => ?_⟩
          rw [mem_singleton.mp isNew]
          rcases below value held with less | ⟨-, le⟩
          · exact absurd same less.ne
          · exact le
        · simp
    · next different =>
        obtain ⟨value, held⟩ := exists_mem_of_ne_nil _ (ordered.nonempty record member)
        have less : record.1 < entry.1 := by
          rcases below value held with less | ⟨same, -⟩
          · exact less
          · exact absurd same different
        apply ordered.concat
        · intro other inside
          rcases mem_append.mp inside with old | isLast
          · exact (others other old).trans less
          · rw [mem_singleton.mp isLast]
            exact less
        · exact pairwise_singleton _ _
        · simp

theorem ordered_recordsOf
    (ascending : entries.Pairwise fun first second => toLex first ≤ toLex second) :
    RecordsOrdered (recordsOf entries) := by
  induction entries using List.reverseRecOn with
  | nil => exact ⟨List.Pairwise.nil, by simp [recordsOf], by simp [recordsOf]⟩
  | append_singleton entries entry ih =>
    obtain ⟨before, -, above⟩ := pairwise_append.mp ascending
    rw [recordsOf, foldl_append, foldl_cons, foldl_nil]
    apply (ih before).addEntry
    intro earlier member
    rw [entriesOf_recordsOf] at member
    exact above earlier member entry mem_cons_self

theorem mem_of_mem_recordsOf {record : BlockRecord} (member : record ∈ recordsOf entries)
    {value : Nat} (held : value ∈ record.2) : (record.1, value) ∈ entries := by
  rw [← entriesOf_recordsOf entries]
  exact mem_flatMap.mpr ⟨record, member, mem_map.mpr ⟨value, held, rfl⟩⟩

theorem RecordsOrdered.sublist (sub : first.Sublist second) (ordered : RecordsOrdered second) :
    RecordsOrdered first :=
  ⟨ordered.keys.sublist sub, fun record member => ordered.values record (sub.subset member),
    fun record member => ordered.nonempty record (sub.subset member)⟩

/-- Records that are missing are missing from the entries. -/
theorem eq_of_entries_eq (sub : first.Sublist second) (nonempty : ∀ record ∈ second, record.2 ≠ [])
    (same : first.flatMap entriesOf = second.flatMap entriesOf) : first = second := by
  induction sub with
  | slnil => rfl
  | cons record sub ih =>
    exfalso
    have fewer := (sub.flatMap entriesOf).length_le
    have some := length_pos_iff.mpr (nonempty record mem_cons_self)
    have total := congrArg List.length same
    rw [flatMap_cons, length_append, entriesOf, length_map] at total
    omega
  | cons_cons record sub ih =>
    rw [flatMap_cons, flatMap_cons] at same
    rw [ih (fun other member => nonempty other (mem_cons_of_mem _ member))
      (append_cancel_left same)]

/-- The entries that are kept are all of them just when no block has too many records
to count. -/
theorem entries_kept_iff
    (ascending : entries.Pairwise fun first second => toLex first ≤ toLex second)
    (blockBytes : Nat) :
    (kept (layout blockBytes (recordsOf entries))).flatMap entriesOf = entries ↔
      ∀ block ∈ packs blockBytes (recordsOf entries), block.length < 2 ^ 32 := by
  rw [← kept_layout_eq_iff]
  constructor
  · intro same
    apply eq_of_entries_eq (kept_layout _ _) (ordered_recordsOf ascending).nonempty
    rw [same, entriesOf_recordsOf]
  · intro all
    rw [all, entriesOf_recordsOf]

/-! ## One value for each of many keys -/

/-- The keys from one on, each with the value zero. -/
def singles (count : Nat) : List (Nat × Nat) :=
  (List.range count).map fun i => (i + 1, 0)

theorem singles_succ (count : Nat) : singles (count + 1) = singles count ++ [(count + 1, 0)] := by
  rw [singles, range_succ, map_append]
  rfl

theorem length_singles (count : Nat) : (singles count).length = count := by
  rw [singles, length_map, length_range]

theorem singles_ascending (count : Nat) :
    (singles count).Pairwise fun first second => toLex first < toLex second := by
  rw [singles, pairwise_map]
  refine pairwise_lt_range.imp fun less => ?_
  exact Prod.Lex.toLex_lt_toLex.mpr (Or.inl (Nat.succ_lt_succ less))

theorem mem_singles {entry : Nat × Nat} (member : entry ∈ singles count) :
    1 ≤ entry.1 ∧ entry.1 ≤ count ∧ entry.2 = 0 := by
  obtain ⟨i, inside, rfl⟩ := mem_map.mp member
  exact ⟨Nat.succ_pos i, mem_range.mp inside, rfl⟩

theorem recordsOf_singles (count : Nat) :
    recordsOf (singles count) = (singles count).map fun entry => (entry.1, [0]) := by
  induction count with
  | zero => rfl
  | succ count ih =>
    rw [singles_succ, recordsOf, foldl_append, map_append]
    change addEntry (recordsOf (singles count)) (count + 1, 0) = _
    rw [ih]
    cases count with
    | zero => rfl
    | succ count =>
      rw [singles_succ, map_append, addEntry, map_singleton, getLast?_concat]
      simp

/-- Such a record takes three bytes at most. -/
theorem length_bodyBytes_singles (count : Nat) :
    (bodyBytes ((singles count).map fun entry => (entry.1, [0]))).length ≤ 3 * count := by
  induction count with
  | zero => exact Nat.zero_le _
  | succ count ih =>
    have short : ∀ v, v < 0x80 → (putVarint v).length = 1 := by
      intro v small
      rw [putVarint, if_pos small]
      rfl
    have record : (BlockWriter.record [0]).length = 2 := by
      rw [record_eq, gapBytes, gapBytes, length_append, length_append,
        short _ (by decide), short _ (by decide)]
      rfl
    rw [singles_succ, map_append, map_singleton]
    cases count with
    | zero =>
      change (BlockWriter.record [0] ++ []).length ≤ _
      rw [append_nil, record]
      decide
    | succ count =>
      have last : lastKey ((singles (count + 1)).map fun entry => (entry.1, [0])) =
          count + 1 := by
        rw [singles_succ, map_append, lastKey, map_singleton, getLast?_concat]
        rfl
      rw [bodyBytes_concat (by rw [singles_succ]; simp), last, length_append,
        length_append, record, Nat.add_sub_cancel_left, short 1 (by decide)]
      omega

/-- As many such records as the counter of a block has values, all in one block, are
lost. -/
theorem layout_singles_full (fits : 3 * count ≤ blockBytes) (full : count = 2 ^ 32) :
    layout blockBytes (recordsOf (singles count)) = ([], []) := by
  rw [recordsOf_singles]
  apply layout_of_full ((length_bodyBytes_singles count).trans fits)
  rw [length_map, length_singles, full]

/-! ## What the writer lays out -/

namespace BlockWriter

/-- The record that is still open. -/
def pending (w : BlockWriter) : List BlockRecord :=
  (w.key.map fun key => (key, w.values)).toList

/-- The writer has closed the first blocks of a layout and is filling the last. -/
structure Lays (w : BlockWriter) (laid : List (List BlockRecord) × List BlockRecord) : Prop where
  blocks : w.blocks = laid.1.flatMap encodeBlock
  offsets : w.offsets = blockOffsets 0 laid.1
  records : w.records = laid.2.length
  body : laid.2 ≠ [] → w.body = bodyBytes laid.2
  first : laid.2 ≠ [] → w.firstKey = headKey laid.2
  prev : laid.2 ≠ [] → w.prevKey = lastKey laid.2
  nonempty : ∀ block ∈ laid.1, block ≠ []
  counted : ∀ block ∈ laid.1, block.length < 2 ^ 32
  counting : laid.2.length < 2 ^ 32

theorem lays_new (blockBytes : Nat) : (new blockBytes).Lays ([], []) where
  blocks := rfl
  offsets := rfl
  records := rfl
  body present := absurd rfl present
  first present := absurd rfl present
  prev present := absurd rfl present
  nonempty := by simp
  counted := by simp
  counting := (by decide : 0 < 2 ^ 32)

variable {w : BlockWriter} {laid : List (List BlockRecord) × List BlockRecord}

theorem Lays.records_eq_zero (lays : w.Lays laid) : w.records = 0 ↔ laid.2 = [] := by
  rw [lays.records, length_eq_zero_iff]

/-- Closing the block being filled; without a record there is none. -/
theorem Lays.closeBlock (lays : w.Lays laid) : w.closeBlock.Lays (blocksIn laid, []) := by
  unfold BlockWriter.closeBlock blocksIn
  split
  · next none =>
      have empty := lays.records_eq_zero.mp none
      rw [empty]
      refine ⟨by simpa using lays.blocks, by simpa using lays.offsets, none, by simp, by simp,
        by simp, by simpa using lays.nonempty, by simpa using lays.counted, ?_⟩
      exact (by decide : 0 < 2 ^ 32)
  · next some =>
      have present : laid.2 ≠ [] := fun empty => some (lays.records_eq_zero.mpr empty)
      have last : [laid.2].filter (· ≠ []) = [laid.2] := by simp [present]
      rw [last]
      refine ⟨?_, ?_, rfl, by simp, by simp, by simp, ?_, ?_, (by decide : 0 < 2 ^ 32)⟩
      · rw [flatMap_append, flatMap_singleton, encodeBlock, ← lays.blocks,
          ← lays.first present, ← lays.records, ← lays.body present, append_assoc,
          append_assoc, append_assoc]
      · rw [blockOffsets_concat, ← lays.offsets, ← lays.blocks, Nat.zero_add]
      · intro block member
        rcases mem_append.mp member with old | new
        · exact lays.nonempty block old
        · rw [mem_singleton.mp new]
          exact present
      · intro block member
        rcases mem_append.mp member with old | new
        · exact lays.counted block old
        · rw [mem_singleton.mp new]
          exact lays.counting

/-- The first record of a new block. -/
theorem Lays.start (lays : w.Lays laid) (key : Nat) (values : List Nat) :
    { w with firstKey := key, prevKey := key, body := record values, records := 1 }.Lays
      (laid.1, [(key, values)]) where
  blocks := lays.blocks
  offsets := lays.offsets
  records := rfl
  body _ := (append_nil _).symm
  first _ := rfl
  prev _ := rfl
  nonempty := lays.nonempty
  counted := lays.counted
  counting := (by decide : 1 < 2 ^ 32)

/-- One more record in the block being filled. -/
theorem Lays.extend (lays : w.Lays laid) (present : laid.2 ≠ []) (key : Nat) (values : List Nat) :
    { w with
      body := w.body ++ putVarint (key - w.prevKey) ++ record values
      records := (w.records + 1) % 2 ^ 32
      prevKey := key }.Lays
      (laid.1, if laid.2.length + 1 = 2 ^ 32 then [] else laid.2 ++ [(key, values)]) := by
  have counting := lays.counting
  split
  · next full =>
      refine ⟨lays.blocks, lays.offsets, ?_, by simp, by simp, by simp, lays.nonempty,
        lays.counted, (by decide : 0 < 2 ^ 32)⟩
      change (w.records + 1) % 2 ^ 32 = 0
      rw [lays.records, full, Nat.mod_self]
  · next room =>
      have counted : laid.2.length + 1 < 2 ^ 32 := by omega
      refine ⟨lays.blocks, lays.offsets, ?_, fun _ => ?_, fun _ => ?_, fun _ => by simp [lastKey],
        lays.nonempty, lays.counted, by simpa using counted⟩
      · change (w.records + 1) % 2 ^ 32 = _
        rw [lays.records, Nat.mod_eq_of_lt counted, length_append]
        rfl
      · change w.body ++ putVarint (key - w.prevKey) ++ record values = _
        rw [bodyBytes_concat present, lays.body present, lays.prev present]
      · change w.firstKey = _
        rw [lays.first present]
        cases opened : laid.2 with
        | nil => exact absurd opened present
        | cons => rfl

theorem Lays.closeRecord (lays : w.Lays laid) :
    w.closeRecord.Lays (w.pending.foldl (layRecord w.blockBytes) laid) := by
  unfold BlockWriter.closeRecord pending
  cases w.key with
  | none => exact lays
  | some key =>
    have taken : ({ w with key := none } : BlockWriter).Lays laid :=
      ⟨lays.blocks, lays.offsets, lays.records, lays.body, lays.first, lays.prev, lays.nonempty,
        lays.counted, lays.counting⟩
    dsimp only [Option.map_some, Option.toList_some, foldl_cons, foldl_nil]
    unfold layRecord packRecord
    by_cases empty : laid.2 = []
    · rw [if_neg (by rw [lays.records, empty]; decide), if_pos empty]
      exact taken.start key w.values
    · have some : w.records > 0 :=
        Nat.pos_of_ne_zero fun none => empty (lays.records_eq_zero.mp none)
      have size : (bodyBytes (laid.2 ++ [(key, w.values)])).length = w.body.length +
          (putVarint (key - w.prevKey)).length + (record w.values).length := by
        rw [bodyBytes_concat empty, ← lays.body empty, ← lays.prev empty, length_append,
          length_append]
      rw [if_pos some, if_neg empty, size]
      split
      · have extended := taken.extend empty key w.values
        simpa only [length_append, length_singleton] using extended
      · have last : [laid.2].filter (· ≠ []) = [laid.2] := by simp [empty]
        have closed := taken.closeBlock
        rw [blocksIn, last] at closed
        exact closed.start key w.values

@[simp]
theorem blockBytes_closeBlock (w : BlockWriter) : w.closeBlock.blockBytes = w.blockBytes := by
  unfold closeBlock
  split <;> rfl

@[simp]
theorem blockBytes_closeRecord (w : BlockWriter) : w.closeRecord.blockBytes = w.blockBytes := by
  unfold closeRecord
  cases w.key with
  | none => rfl
  | some key =>
    dsimp only
    split
    · split
      · rfl
      · exact blockBytes_closeBlock _
    · rfl

/-- The writer has laid out all records but the last, which is still open. -/
structure Wrote (w : BlockWriter) (blockBytes : Nat) (records : List BlockRecord) : Prop where
  size : w.blockBytes = blockBytes
  lays : ∃ done, w.Lays (layout blockBytes done) ∧ done ++ w.pending = records
  unopened : w.key = none → records = []

theorem wrote_new (blockBytes : Nat) : (new blockBytes).Wrote blockBytes [] :=
  ⟨rfl, ⟨[], lays_new blockBytes, rfl⟩, fun _ => rfl⟩

variable {blockBytes : Nat} {records : List BlockRecord}

/-- Closing the open record lays it out behind the others. -/
theorem Wrote.closeRecord (wrote : w.Wrote blockBytes records) :
    w.closeRecord.Lays (layout blockBytes records) := by
  obtain ⟨done, lays, content⟩ := wrote.lays
  have closed := lays.closeRecord
  rwa [wrote.size, layout, ← foldl_append, content] at closed

theorem Wrote.push (wrote : w.Wrote blockBytes records) (entry : Nat × Nat) :
    (w.push entry.1 entry.2).Wrote blockBytes (addEntry records entry) := by
  have closed := wrote.closeRecord
  obtain ⟨size, ⟨done, lays, content⟩, unopened⟩ := wrote
  unfold BlockWriter.push
  split
  · next same =>
      refine ⟨size, ⟨done, ⟨lays.blocks, lays.offsets, lays.records, lays.body, lays.first,
        lays.prev, lays.nonempty, lays.counted, lays.counting⟩, ?_⟩, fun none => ?_⟩
      · rw [← content, pending, pending, same, addEntry]
        simp
      · rw [same] at none
        cases none
  · next other =>
      refine ⟨(blockBytes_closeRecord w).trans size, ⟨records, ⟨closed.blocks, closed.offsets,
        closed.records, closed.body, closed.first, closed.prev, closed.nonempty, closed.counted,
        closed.counting⟩, ?_⟩, fun none => by cases none⟩
      cases key : w.key with
      | none =>
        rw [unopened key]
        rfl
      | some last =>
        have different : last ≠ entry.1 := fun same => other (by rw [key, same])
        rw [← content, pending, pending, key, addEntry]
        simp [different]

theorem wrote_entries (blockBytes : Nat) (entries : List (Nat × Nat)) :
    (entries.foldl (fun w entry => w.push entry.1 entry.2) (new blockBytes)).Wrote blockBytes
      (recordsOf entries) := by
  suffices ∀ (w : BlockWriter) (records : List BlockRecord), w.Wrote blockBytes records →
      (entries.foldl (fun w entry => w.push entry.1 entry.2) w).Wrote blockBytes
        (entries.foldl addEntry records) from this _ _ (wrote_new blockBytes)
  induction entries with
  | nil => exact fun _ _ wrote => wrote
  | cons entry entries ih =>
    intro w records wrote
    exact ih _ _ (wrote.push entry)

/-- The payload holds the blocks of the layout. -/
theorem Wrote.payload (wrote : w.Wrote blockBytes records) (count : Nat) :
    w.payload count = blocksPayload count (blocksIn (layout blockBytes records)) := by
  have final := wrote.closeRecord.closeBlock
  rw [BlockWriter.payload, blocksPayload, final.offsets, final.blocks, length_blockOffsets]

theorem Wrote.blocks (wrote : w.Wrote blockBytes records) :
    ∀ block ∈ blocksIn (layout blockBytes records), block ≠ [] ∧ block.length < 2 ^ 32 :=
  have final := wrote.closeRecord.closeBlock
  fun block member => ⟨final.nonempty block member, final.counted block member⟩

end BlockWriter

end Blaze
