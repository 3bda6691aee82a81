import Blaze.Storage.BlockReader

/-!
# What the readers of blocks answer

A payload of blocks whose records ascend is opened where it stands.  A lookup then
gives the values of its key, and an iteration gives all entries.
-/

namespace Blaze

open List Bytes Fallible Search

variable {i start count : Nat} {blocks : List (List BlockRecord)} {data : List UInt8}

/-! ## Offsets of blocks -/

/-- What a table of blocks has to meet: its records ascend, and their numbers fit the
widths they are read with. -/
structure BlocksOk (blocks : List (List BlockRecord)) : Prop where
  nonempty : ∀ block ∈ blocks, block ≠ []
  counted : ∀ block ∈ blocks, block.length < 2 ^ 32
  ordered : RecordsOrdered blocks.flatten
  keys : ∀ record ∈ blocks.flatten, record.1 < 2 ^ 64
  values : ∀ record ∈ blocks.flatten, ∀ value ∈ record.2, value < 2 ^ 64

/-- Where each block starts, and where the last one ends. -/
def blockEnds (start : Nat) (blocks : List (List BlockRecord)) : List Nat :=
  blockOffsets start blocks ++ [start + (blocks.flatMap encodeBlock).length]

theorem blockEnds_cons (start : Nat) (block : List BlockRecord) (blocks : List (List BlockRecord)) :
    blockEnds start (block :: blocks) =
      start :: blockEnds (start + (encodeBlock block).length) blocks := by
  rw [blockEnds, blockOffsets, flatMap_cons, length_append, ← Nat.add_assoc]
  rfl

theorem length_blockEnds (start : Nat) (blocks : List (List BlockRecord)) :
    (blockEnds start blocks).length = blocks.length + 1 := by
  rw [blockEnds, length_append, length_blockOffsets]
  rfl

theorem length_encodeBlock (block : List BlockRecord) :
    (encodeBlock block).length = 12 + (bodyBytes block).length := by
  rw [encodeBlock, length_append, length_append, length_putLe, length_putLe]

theorem blockEnds_getElem? (start : Nat) (blocks : List (List BlockRecord))
    (inside : i ≤ blocks.length) :
    (blockEnds start blocks)[i]? = some (start + ((blocks.take i).flatMap encodeBlock).length) := by
  induction blocks generalizing start i with
  | nil =>
    rw [Nat.le_zero.mp inside]
    rfl
  | cons block blocks ih =>
    rw [blockEnds_cons]
    cases i with
    | zero => rfl
    | succ i =>
      rw [getElem?_cons_succ, ih _ (Nat.le_of_succ_le_succ inside),
        take_succ_cons, flatMap_cons, length_append, Nat.add_assoc]

theorem le_of_mem_blockEnds {offset : Nat} (member : offset ∈ blockEnds start blocks) :
    start ≤ offset := by
  obtain ⟨i, at_i⟩ := mem_iff_getElem?.mp member
  obtain ⟨bound, -⟩ := List.getElem?_eq_some_iff.mp at_i
  rw [length_blockEnds] at bound
  rw [blockEnds_getElem? start blocks (Nat.le_of_lt_succ bound)] at at_i
  cases at_i
  exact Nat.le_add_right _ _

theorem blockEnds_ascend (start : Nat) (blocks : List (List BlockRecord)) :
    (blockEnds start blocks).Pairwise (· < ·) := by
  induction blocks generalizing start with
  | nil => exact pairwise_singleton _ _
  | cons block blocks ih =>
    rw [blockEnds_cons]
    refine pairwise_cons.mpr ⟨fun offset member => ?_, ih _⟩
    have above := le_of_mem_blockEnds member
    rw [length_encodeBlock] at above
    omega

theorem ascends_of_pairwise {items : List Nat} (ascending : items.Pairwise (· < ·)) :
    ascends items = true := by
  induction items with
  | nil => rfl
  | cons item items ih =>
    obtain ⟨above, rest⟩ := pairwise_cons.mp ascending
    cases items with
    | nil => rfl
    | cons next items =>
      have head := above next mem_cons_self
      have tail := ih rest
      unfold ascends at tail ⊢
      simpa [head] using tail

theorem headKey_of_ne_nil {block : List BlockRecord} (nonempty : block ≠ []) :
    ∃ record ∈ block, headKey block = record.1 := by
  cases block with
  | nil => exact absurd rfl nonempty
  | cons record records => exact ⟨record, mem_cons_self, rfl⟩

/-- Blocks with ascending records have ascending first keys. -/
theorem BlocksOk.headKeys_ascend (ok : BlocksOk blocks) :
    (blocks.map headKey).Pairwise (· < ·) := by
  rw [pairwise_map]
  have between := (pairwise_flatten.mp ok.ordered.keys).2
  refine between.imp_of_mem fun {first second} inFirst inSecond less => ?_
  obtain ⟨one, inOne, same⟩ := headKey_of_ne_nil (ok.nonempty first inFirst)
  obtain ⟨two, inTwo, same'⟩ := headKey_of_ne_nil (ok.nonempty second inSecond)
  rw [same, same']
  exact less one inOne two inTwo

/-! ## Tables of blocks -/

/-- The offsets of a payload with its last one. -/
theorem blocksPayload_eq (count : Nat) (blocks : List (List BlockRecord)) :
    blocksPayload count blocks = putLe 8 count ++ (putLe 8 blocks.length ++
      ((blockEnds 0 blocks).flatMap (putLe 8) ++ blocks.flatMap encodeBlock)) := by
  rw [blocksPayload, blockEnds, flatMap_append, flatMap_singleton, Nat.zero_add]
  simp only [append_assoc]

namespace BlockedTable

/-- The table has the blocks. -/
structure Stores (t : BlockedTable) (data : List UInt8) (blocks : List (List BlockRecord)) :
    Prop where
  firstKeys : t.firstKeys = blocks.map headKey
  offsets : t.offsets = blockEnds 0 blocks
  bytes : Holds data t.blocksAt (blocks.flatMap encodeBlock)

variable {t : BlockedTable} {data : List UInt8} {blocks : List (List BlockRecord)}

theorem Stores.blockAt_eq (stores : t.Stores data blocks) (inside : i ≤ blocks.length) :
    t.blockAt i = t.blocksAt + ((blocks.take i).flatMap encodeBlock).length := by
  rw [blockAt, stores.offsets, getD_eq_getElem?_getD, blockEnds_getElem? 0 blocks inside,
    Nat.zero_add]
  rfl

end BlockedTable

/-- Each block stands behind the ones before it. -/
theorem holds_block (holds : Holds data start (blocks.flatMap encodeBlock))
    {block : List BlockRecord} (at_i : blocks[i]? = some block) :
    Holds data (start + ((blocks.take i).flatMap encodeBlock).length) (encodeBlock block) := by
  obtain ⟨bound, rfl⟩ := List.getElem?_eq_some_iff.mp at_i
  have split : blocks = blocks.take i ++ blocks[i] :: blocks.drop (i + 1) := by
    rw [← drop_eq_getElem_cons bound, take_append_drop]
  rw [split, flatMap_append, holds_append, flatMap_cons, holds_append] at holds
  exact holds.2.1

namespace BlockedTable

variable {t : BlockedTable} {data : List UInt8} {blocks : List (List BlockRecord)}

theorem Stores.block (stores : t.Stores data blocks) {block : List BlockRecord}
    (at_i : blocks[i]? = some block) :
    Holds data (t.blockAt i) (encodeBlock block) ∧
      t.blockAt (i + 1) = t.blockAt i + (encodeBlock block).length ∧
      t.firstKeys.getD i 0 = headKey block := by
  obtain ⟨bound, same⟩ := List.getElem?_eq_some_iff.mp at_i
  refine ⟨?_, ?_, ?_⟩
  · rw [stores.blockAt_eq bound.le]
    exact holds_block stores.bytes at_i
  · rw [stores.blockAt_eq bound.le, stores.blockAt_eq bound, take_succ_eq_append_getElem bound,
      flatMap_append, flatMap_singleton, same, length_append, Nat.add_assoc]
  · rw [stores.firstKeys, getD_eq_getElem?_getD, getElem?_map, at_i]
    rfl

end BlockedTable

/-! ## Opening a payload -/

section Open

variable {data : List UInt8} {blocks : List (List BlockRecord)}

/-- The size of the header with the offsets. -/
def headerBytes (blocks : List (List BlockRecord)) : Nat :=
  16 + (blocks.length + 1) * 8

theorem length_flatMap_ends (blocks : List (List BlockRecord)) :
    ((blockEnds 0 blocks).flatMap (putLe 8)).length = (blocks.length + 1) * 8 := by
  rw [← length_blockEnds 0 blocks, length_flatMap]
  simp

theorem length_blocksPayload (count : Nat) (blocks : List (List BlockRecord)) :
    (blocksPayload count blocks).length =
      headerBytes blocks + (blocks.flatMap encodeBlock).length := by
  rw [blocksPayload_eq, length_append, length_append, length_append,
    length_flatMap_ends, length_putLe, length_putLe, headerBytes]
  omega

/-- What stands in a payload: the block count, the offsets and the blocks. -/
theorem holds_blocksPayload (holds : Holds data start (blocksPayload count blocks)) :
    Holds data (start + 8) (putLe 8 blocks.length) ∧
      Holds data (start + 16) ((blockEnds 0 blocks).flatMap (putLe 8)) ∧
      Holds data (start + headerBytes blocks) (blocks.flatMap encodeBlock) := by
  rw [blocksPayload_eq, holds_append, holds_append, holds_append, length_putLe, length_putLe,
    length_flatMap_ends] at holds
  refine ⟨holds.2.1, holds.2.2.1, ?_⟩
  have place : start + 8 + 8 + (blocks.length + 1) * 8 = start + headerBytes blocks := by
    rw [headerBytes]
    omega
  exact place ▸ holds.2.2.2

theorem le_of_mem_ends {offset : Nat} (member : offset ∈ blockEnds 0 blocks) :
    offset ≤ (blocks.flatMap encodeBlock).length := by
  obtain ⟨i, at_i⟩ := mem_iff_getElem?.mp member
  obtain ⟨bound, -⟩ := List.getElem?_eq_some_iff.mp at_i
  rw [length_blockEnds] at bound
  rw [blockEnds_getElem? 0 blocks (Nat.le_of_lt_succ bound), Nat.zero_add] at at_i
  cases at_i
  conv_rhs => rw [← take_append_drop i blocks, flatMap_append, length_append]
  exact Nat.le_add_right _ _

theorem offsets_read (fits : (blocksPayload count blocks).length < 2 ^ 64) :
    (List.range (blocks.length + 1)).mapM
      (fun i => readLe 8 (blocksPayload count blocks) (16 + i * 8)) = .ok (blockEnds 0 blocks) := by
  rw [← length_blockEnds 0 blocks]
  apply mapM_range_eq_ok
  intro i offset at_i
  have holds := holds_blocksPayload (holds_self (blocksPayload count blocks))
  rw [Nat.zero_add] at holds
  apply readLe_of_holds (by decide) (holds.2.1.item (length_putLe 8) at_i)
  have small := le_of_mem_ends (mem_of_getElem? at_i)
  rw [length_blocksPayload] at fits
  change offset < 2 ^ 64
  omega

end Open

namespace BlockedTable

variable {data : List UInt8} {blocks : List (List BlockRecord)}

theorem firstKeys_read (ok : BlocksOk blocks) {t : BlockedTable}
    (stores : t.Stores data blocks) (message : Nat → String) :
    (List.range blocks.length).mapM (fun i => do
      ensure (12 ≤ t.offsets.getD (i + 1) 0 - t.offsets.getD i 0 ∧
        t.blocksAt + t.offsets.getD i 0 + 12 ≤ data.length) (message i)
      readLe 8 data (t.blocksAt + t.offsets.getD i 0)) = .ok (blocks.map headKey) := by
  have count : blocks.length = (blocks.map headKey).length := (length_map _).symm
  rw [count]
  apply mapM_range_eq_ok
  intro i key at_i
  rw [getElem?_map, Option.map_eq_some_iff] at at_i
  obtain ⟨block, at_i, rfl⟩ := at_i
  obtain ⟨holds, next, -⟩ := stores.block at_i
  have size := length_encodeBlock block
  have inside := holds.le_length (ne_nil_of_length_pos (by omega))
  unfold blockAt at holds next inside
  rw [ensure_of ⟨by omega, by omega⟩]
  rw [encodeBlock, holds_append, holds_append] at holds
  refine readLe_of_holds (by decide) holds.1.1 ?_
  have member := mem_of_getElem? at_i
  obtain ⟨record, inBlock, same⟩ := headKey_of_ne_nil (ok.nonempty block member)
  rw [same]
  exact ok.keys record (mem_flatten.mpr ⟨block, member, inBlock⟩)

/-- A payload that was written is opened where it stands. -/
theorem parse_eq {stop : Nat} (sliced : slice data start stop = some (blocksPayload count blocks))
    (mapped : data.length < 2 ^ 64) (ok : BlocksOk blocks) (texts : BlockTexts) :
    ∃ t, parse texts data start stop = .ok t ∧ t.Stores data blocks := by
  have fits := (length_le_of_slice sliced).trans_lt mapped
  have offsets := offsets_read fits
  have holds := holds_blocksPayload (holds_self (blocksPayload count blocks))
  rw [Nat.zero_add] at holds
  rw [length_blocksPayload, headerBytes] at fits
  have blocksEq : getLe 8 (blocksPayload count blocks) 8 = blocks.length := by
    rw [getLe_of_holds holds.1, Nat.mod_eq_of_lt]
    change _ < 2 ^ 64
    omega
  have table : (16 + (blocks.length + 1) * 8) % 2 ^ 64 = headerBytes blocks :=
    Nat.mod_eq_of_lt (by omega)
  have last : (blockEnds 0 blocks).getD blocks.length 0 =
      (blocksPayload count blocks).length - headerBytes blocks := by
    rw [getD_eq_getElem?_getD, blockEnds_getElem? 0 blocks le_rfl, take_length,
      length_blocksPayload, Nat.add_sub_cancel_left, Nat.zero_add]
    rfl
  have stores : (⟨start + headerBytes blocks, getLe 8 (blocksPayload count blocks) 0,
      blockEnds 0 blocks, blocks.map headKey⟩ : BlockedTable).Stores data blocks :=
    ⟨rfl, rfl, (holds_blocksPayload (holds_of_slice sliced)).2.2⟩
  refine ⟨_, ?_, stores⟩
  have keys := firstKeys_read ok stores fun i =>
    let name := texts.table
    s!"{name} block {i} is too short for its header"
  have ends := ascends_of_pairwise (blockEnds_ascend 0 blocks)
  have heads := ascends_of_pairwise ok.headKeys_ascend
  rw [parse, sliced]
  dsimp only at keys ⊢
  rw [ensure_of (by rw [length_blocksPayload, headerBytes]; omega), blocksEq, table,
    ensure_of (by rw [length_blocksPayload]; omega), offsets]
  change (do
    ensure _ _
    ensure _ _
    let firstKeys ← _
    ensure _ _
    .ok _) = _
  rw [ensure_of last, ensure_of ends, keys]
  change (do
    ensure (ascends (blocks.map headKey) = true) _
    .ok _) = _
  rw [ensure_of heads]
  rfl

end BlockedTable

/-! ## Records and values in front of a decoder -/

/-- The values that stand at a place as gaps. -/
structure Gapped (data : List UInt8) (prev i : Nat) (values : List Nat) : Prop where
  bytes : Holds data i (gapBytes prev values)
  least : ∀ value ∈ values, prev ≤ value
  ascending : values.Pairwise (· ≤ ·)
  fits : ∀ value ∈ values, value < 2 ^ 64

theorem Gapped.read {prev value : Nat} {values : List Nat}
    (gapped : Gapped data prev i (value :: values)) :
    ∃ read : Nat × Nat, getVarint data i = .ok read ∧ (prev + read.1) % 2 ^ 64 = value ∧
      Gapped data value read.2 values ∧
      read.2 + (gapBytes value values).length = i + (gapBytes prev (value :: values)).length := by
  have least := gapped.least value mem_cons_self
  have small := gapped.fits value mem_cons_self
  have holds := gapped.bytes
  rw [gapBytes, holds_append] at holds
  have above := pairwise_cons.mp gapped.ascending
  refine ⟨_, getVarint_of_holds holds.1 ((Nat.sub_le _ _).trans_lt small), ?_,
    ⟨holds.2, fun other member => above.1 other member, above.2,
      fun other member => gapped.fits other (mem_cons_of_mem _ member)⟩, ?_⟩
  · change (prev + (value - prev)) % 2 ^ 64 = value
    rw [Nat.add_sub_cancel' least, Nat.mod_eq_of_lt small]
  · change i + (putVarint (value - prev)).length + _ = _
    rw [gapBytes, length_append, Nat.add_assoc]

theorem length_le_gapBytes (prev : Nat) (values : List Nat) :
    values.length ≤ (gapBytes prev values).length := by
  induction values generalizing prev with
  | nil => exact Nat.zero_le _
  | cons value values ih =>
    have rest := ih value
    have gap := length_pos_iff.mpr (putVarint_ne_nil (value - prev))
    rw [gapBytes, length_append, length_cons]
    omega

/-- The records a decoder still has in front of it; the key of the first record of a
block is known from the header. -/
def openBytes (first : Bool) (cur : Nat) (records : List BlockRecord) : List UInt8 :=
  if first then bodyBytes records else tailBytes cur records

structure Reading (data : List UInt8) (stop : Nat) (first : Bool) (cur i : Nat)
    (records : List BlockRecord) : Prop where
  bytes : Holds data i (openBytes first cur records)
  inside : i + (openBytes first cur records).length ≤ stop
  head : first = true → cur = headKey records
  above : first = false → ∀ record ∈ records, cur < record.1
  ordered : RecordsOrdered records
  keys : ∀ record ∈ records, record.1 < 2 ^ 64
  values : ∀ record ∈ records, ∀ value ∈ record.2, value < 2 ^ 64

section Reading

variable {data : List UInt8} {stop : Nat} {first : Bool} {cur i : Nat} {record : BlockRecord}
  {records : List BlockRecord}

/-- The key of the next record, by the header or by its gap. -/
theorem Reading.nextKey_eq (reading : Reading data stop first cur i (record :: records)) :
    ∃ k, nextKey data first cur i = .ok (record.1, k) ∧
      Holds data k (BlockWriter.record record.2 ++ tailBytes record.1 records) ∧
      k + (BlockWriter.record record.2 ++ tailBytes record.1 records).length ≤ stop := by
  have holds := reading.bytes
  have inside := reading.inside
  cases first with
  | true =>
    refine ⟨i, ?_, holds, inside⟩
    rw [nextKey, reading.head rfl]
    rfl
  | false =>
    have above := reading.above rfl record mem_cons_self
    have small := reading.keys record mem_cons_self
    have gap : getVarint data i =
        .ok (record.1 - cur, i + (putVarint (record.1 - cur)).length) :=
      getVarint_of_holds (holds_append.mp holds).1 ((Nat.sub_le _ _).trans_lt small)
    change i + (putVarint (record.1 - cur) ++ _).length ≤ stop at inside
    rw [length_append, ← Nat.add_assoc] at inside
    refine ⟨_, ?_, (holds_append.mp holds).2, inside⟩
    rw [nextKey, gap]
    change Except.ok ((cur + (record.1 - cur)) % 2 ^ 64, _) = _
    rw [Nat.add_sub_cancel' above.le, Nat.mod_eq_of_lt small]

/-- One record: its key, the number of its values, its values, and the records behind
it. -/
theorem Reading.readRecord (reading : Reading data stop first cur i (record :: records))
    (mapped : data.length < 2 ^ 64) :
    ∃ k j, nextKey data first cur i = .ok (record.1, k) ∧
      getVarint data k = .ok (record.2.length, j) ∧ Gapped data 0 j record.2 ∧
      Reading data stop false record.1 (j + (gapBytes 0 record.2).length) records := by
  obtain ⟨k, key, holds, inside⟩ := reading.nextKey_eq
  rw [record_eq, holds_append, holds_append] at holds
  rw [record_eq, length_append, length_append] at inside
  obtain ⟨⟨count, values⟩, rest⟩ := holds
  have few : record.2.length < 2 ^ 64 := by
    have enough := length_le_gapBytes 0 record.2
    have whole := values.length_le
    rw [length_drop] at whole
    omega
  have ordered := pairwise_cons.mp reading.ordered.keys
  have behind : RecordsOrdered ([record] ++ records) := reading.ordered
  refine ⟨k, _, key, getVarint_of_holds count few, ⟨values, fun _ _ => Nat.zero_le _,
    reading.ordered.values record mem_cons_self, reading.values record mem_cons_self⟩,
    ?_, ?_, fun never => absurd never Bool.false_ne_true, fun _ => ordered.1,
    behind.of_append.2,
    fun other member => reading.keys other (mem_cons_of_mem _ member),
    fun other member => reading.values other (mem_cons_of_mem _ member)⟩
  · rw [length_append, ← Nat.add_assoc] at rest
    exact rest
  · change _ + (tailBytes record.1 records).length ≤ stop
    omega

end Reading

/-- A decoder that starts at a block has its records in front of it. -/
theorem BlockedTable.Stores.reading {t : BlockedTable} (stores : t.Stores data blocks)
    (ok : BlocksOk blocks) {block : List BlockRecord} (at_i : blocks[i]? = some block) :
    readLe 4 data (t.blockAt i + 8) = .ok block.length ∧
      Reading data (t.blockAt (i + 1)) true (t.firstKeys.getD i 0) (t.blockAt i + 12) block := by
  have member := mem_of_getElem? at_i
  have inside : ∀ record ∈ block, record ∈ blocks.flatten := fun record inBlock =>
    mem_flatten.mpr ⟨block, member, inBlock⟩
  obtain ⟨holds, next, first⟩ := stores.block at_i
  rw [length_encodeBlock] at next
  rw [encodeBlock, holds_append, holds_append, length_append, length_putLe, length_putLe]
    at holds
  refine ⟨readLe_of_holds (by decide) holds.1.2 (ok.counted block member), holds.2, ?_,
    fun _ => first, fun never => absurd never.symm Bool.false_ne_true, ?_,
    fun record inBlock => ok.keys record (inside record inBlock),
    fun record inBlock => ok.values record (inside record inBlock)⟩
  · rw [next, Nat.add_assoc]
    exact le_rfl
  · exact ⟨(pairwise_flatten.mp ok.ordered.keys).1 block member,
      fun record inBlock => ok.ordered.values record (inside record inBlock),
      fun record inBlock => ok.ordered.nonempty record (inside record inBlock)⟩

/-! ## The block of a key -/

theorem valuesIn_append (first second : List BlockRecord) (key : Nat) :
    valuesIn (first ++ second) key = valuesIn first key ++ valuesIn second key :=
  flatMap_append

theorem valuesIn_of_ne {records : List BlockRecord} {key : Nat}
    (other : ∀ record ∈ records, record.1 ≠ key) : valuesIn records key = [] := by
  rw [valuesIn, flatMap_eq_nil_iff]
  intro record member
  exact if_neg (other record member)

theorem valuesIn_cons (record : BlockRecord) (records : List BlockRecord) (key : Nat) :
    valuesIn (record :: records) key =
      (if record.1 = key then record.2 else []) ++ valuesIn records key :=
  flatMap_cons

theorem BlocksOk.headKey_le (ok : BlocksOk blocks) {block : List BlockRecord}
    (member : block ∈ blocks) {record : BlockRecord} (inBlock : record ∈ block) :
    headKey block ≤ record.1 := by
  have ascending := (pairwise_flatten.mp ok.ordered.keys).1 block member
  cases block with
  | nil => cases inBlock
  | cons first records =>
    rcases mem_cons.mp inBlock with rfl | later
    · exact le_rfl
    · exact ((pairwise_cons.mp ascending).1 record later).le

/-- The first keys decide whether a block can have a key. -/
theorem BlocksOk.lt_point_iff (ok : BlocksOk blocks) {block : List BlockRecord}
    (at_i : blocks[i]? = some block) (key : Nat) :
    i < partitionPoint (· ≤ key) (blocks.map headKey) ↔ headKey block ≤ key := by
  have falls : (blocks.map headKey).Pairwise fun first second =>
      decide (second ≤ key) → decide (first ≤ key) :=
    ok.headKeys_ascend.imp fun less le => by simpa using less.le.trans (by simpa using le)
  have key_i : (blocks.map headKey)[i]? = some (headKey block) := by
    rw [getElem?_map, at_i]
    rfl
  rw [lt_partitionPoint_iff falls key_i, decide_eq_true_iff]

/-- All values of a key are in one block, the last one whose first key is not
above. -/
theorem BlocksOk.valuesIn_eq (ok : BlocksOk blocks) (key : Nat) :
    (partitionPoint (· ≤ key) (blocks.map headKey) = 0 → valuesIn blocks.flatten key = []) ∧
      (partitionPoint (· ≤ key) (blocks.map headKey) ≠ 0 →
        ∃ block, blocks[partitionPoint (· ≤ key) (blocks.map headKey) - 1]? = some block ∧
          valuesIn blocks.flatten key = valuesIn block key) := by
  have beyond : ∀ i block, blocks[i]? = some block →
      partitionPoint (· ≤ key) (blocks.map headKey) ≤ i → ∀ record ∈ block, record.1 ≠ key := by
    intro i block at_i after record inBlock same
    have low := ok.headKey_le (mem_of_getElem? at_i) inBlock
    have inside := (ok.lt_point_iff at_i key).mpr (low.trans same.le)
    exact absurd inside (not_lt.mpr after)
  have short := partitionPoint_le (fun other => decide (other ≤ key)) (blocks.map headKey)
  rw [length_map] at short
  -- blocks before the chosen one end below its first key, later ones start above the key
  generalize point : partitionPoint (fun other => decide (other ≤ key)) (blocks.map headKey) =
    after at beyond short
  constructor
  · rintro rfl
    apply valuesIn_of_ne
    intro record member
    obtain ⟨block, inBlocks, inBlock⟩ := mem_flatten.mp member
    obtain ⟨i, at_i⟩ := mem_iff_getElem?.mp inBlocks
    exact beyond i block at_i (Nat.zero_le i) record inBlock
  · intro some
    obtain ⟨place, rfl⟩ := Nat.exists_eq_succ_of_ne_zero some
    have bound : place < blocks.length := short
    have at_place := getElem?_eq_getElem bound
    have reached : headKey blocks[place] ≤ key :=
      (ok.lt_point_iff at_place key).mp (by rw [point]; exact Nat.lt_succ_self place)
    refine ⟨blocks[place], at_place, ?_⟩
    have split : blocks.flatten =
        (blocks.take place).flatten ++ (blocks[place] ++ (blocks.drop (place + 1)).flatten) := by
      rw [← flatten_cons, ← drop_eq_getElem_cons bound, ← flatten_append,
        take_append_drop]
    have before : ∀ record ∈ (blocks.take place).flatten, record.1 ≠ key := by
      intro record member
      obtain ⟨head, inBlock, same⟩ :=
        headKey_of_ne_nil (ok.nonempty _ (getElem_mem bound))
      have ordered := ok.ordered.keys
      rw [split, pairwise_append] at ordered
      have less := ordered.2.2 record member head (mem_append_left _ inBlock)
      rw [← same] at less
      exact (less.trans_le reached).ne
    have after : ∀ record ∈ (blocks.drop (place + 1)).flatten, record.1 ≠ key := by
      intro record member
      obtain ⟨block, inBlocks, inBlock⟩ := mem_flatten.mp member
      obtain ⟨i, at_i⟩ := mem_iff_getElem?.mp inBlocks
      rw [getElem?_drop] at at_i
      exact beyond _ block at_i (Nat.le_add_right _ _) record inBlock
    rw [split, valuesIn_append, valuesIn_append, valuesIn_of_ne before, valuesIn_of_ne after,
      nil_append, append_nil]

/-- The blocks that a writer lays out for ascending entries can be read. -/
theorem blocksOk_layout {w : BlockWriter} {blockBytes : Nat} {entries : List (Nat × Nat)}
    (wrote : w.Wrote blockBytes (recordsOf entries))
    (ascending : entries.Pairwise fun first second => toLex first ≤ toLex second)
    (keys : ∀ entry ∈ entries, entry.1 < 2 ^ 64) (values : ∀ entry ∈ entries, entry.2 < 2 ^ 64) :
    BlocksOk (blocksIn (layout blockBytes (recordsOf entries))) := by
  have ordered := ordered_recordsOf ascending
  have sub := kept_layout blockBytes (recordsOf entries)
  rw [← flatten_blocksIn] at sub
  refine ⟨fun block member => (wrote.blocks block member).1,
    fun block member => (wrote.blocks block member).2, ordered.sublist sub, ?_, ?_⟩
  · intro record member
    obtain ⟨value, held⟩ :=
      exists_mem_of_ne_nil _ (ordered.nonempty record (sub.subset member))
    exact keys _ (mem_of_mem_recordsOf (sub.subset member) held)
  · intro record member value held
    exact values _ (mem_of_mem_recordsOf (sub.subset member) held)

end Blaze
