import Blaze.Storage.Filter

/-!
# What a filter answers

A key sets bits in one block and a probe asks for the same bits, so that a filter never
denies a key it was built over; bits are only ever added.  An encoded filter reads back as
it was, and any bytes the decoder accepts are the encoding of what it returns.
-/

namespace Blaze

open List Bytes Fallible

variable {filter : BlockedFilter} {key : UInt64} {data : List UInt8}

namespace BlockedFilter

/-! ## Bits -/

theorem hasBits_or_right (word bits : UInt64) : hasBits (word ||| bits) bits = true := by
  rw [hasBits, beq_iff_eq, ← UInt64.toBitVec_inj]
  ext i inside
  simp only [UInt64.toBitVec_and, UInt64.toBitVec_or, BitVec.getElem_and, BitVec.getElem_or]
  cases word.toBitVec[i] <;> cases bits.toBitVec[i] <;> rfl

theorem hasBits_or_of {word bits : UInt64} (more : UInt64) (has : hasBits word bits = true) :
    hasBits (word ||| more) bits = true := by
  rw [hasBits, beq_iff_eq] at has ⊢
  rw [← UInt64.toBitVec_inj] at has ⊢
  ext i inside
  have bit := congrArg (fun vector : BitVec 64 => vector[i]) has
  simp only [UInt64.toBitVec_and, UInt64.toBitVec_or, BitVec.getElem_and,
    BitVec.getElem_or] at bit ⊢
  generalize word.toBitVec[i] = w at bit
  generalize bits.toBitVec[i] = b at bit
  cases w <;> cases b <;> simp_all

/-- Whether a block has all bits of a pattern. -/
def covers (block pattern : List UInt64) : Bool :=
  (List.zipWith hasBits block pattern).all id

theorem covers_or_right (block pattern : List UInt64) :
    covers (List.zipWith (· ||| ·) block pattern) pattern = true := by
  induction block generalizing pattern with
  | nil => rfl
  | cons word block ih =>
    cases pattern with
    | nil => rfl
    | cons bits pattern =>
      have rest := ih pattern
      unfold covers at rest ⊢
      simp only [zipWith_cons_cons, all_cons, id_eq, hasBits_or_right, rest,
        Bool.and_self]

theorem covers_or_of {block pattern : List UInt64} (more : List UInt64)
    (has : covers block pattern = true) :
    covers (List.zipWith (· ||| ·) block more) pattern = true := by
  induction block generalizing pattern more with
  | nil => rfl
  | cons word block ih =>
    cases more with
    | nil => rfl
    | cons added more =>
      cases pattern with
      | nil => rfl
      | cons bits pattern =>
        unfold covers at has ih ⊢
        simp only [zipWith_cons_cons, all_cons, id_eq, Bool.and_eq_true] at has ⊢
        exact ⟨hasBits_or_of added has.1, ih more has.2⟩

/-! ## Keys of a filter -/

/-- The bits of a key are set in its block. -/
def Marks (filter : BlockedFilter) (key : UInt64) : Prop :=
  ∃ block, filter.blocks[(filter.locate key).1]? = some block ∧
    covers block (filter.locate key).2 = true

theorem mayContain_of_marks (marks : filter.Marks key) : filter.mayContain key = .ok true := by
  obtain ⟨block, stored, covered⟩ := marks
  have some : filter.blocks.length ≠ 0 := by
    intro empty
    rw [length_eq_zero_iff] at empty
    rw [empty] at stored
    cases stored
  rw [mayContain, if_neg some]
  dsimp only
  rw [stored]
  exact congrArg Except.ok covered

@[simp]
theorem length_blocks_insert (filter : BlockedFilter) (key : UInt64) :
    (filter.insert key).blocks.length = filter.blocks.length :=
  length_modify _ _ _

theorem length_blocks_foldl_insert (keys : List UInt64) (filter : BlockedFilter) :
    (keys.foldl BlockedFilter.insert filter).blocks.length = filter.blocks.length := by
  induction keys generalizing filter with
  | nil => rfl
  | cons key keys ih =>
    rw [foldl_cons, ih, length_blocks_insert]

/-- The hint and the bits per key decide how many blocks a filter has. -/
theorem length_blocks_build (keys : List UInt64) (hint bitsPerKey : Nat) :
    (build keys hint bitsPerKey).blocks.length =
      max ((hint * max (clampFilterBits bitsPerKey) 1 % 2 ^ 64 + (blockBits - 1)) / blockBits)
        1 := by
  rw [build, length_blocks_foldl_insert, length_replicate]

theorem length_blocks_build_pos (keys : List UInt64) (hint bitsPerKey : Nat) :
    0 < (build keys hint bitsPerKey).blocks.length := by
  rw [length_blocks_build]
  exact Nat.lt_of_lt_of_le Nat.one_pos (le_max_right _ _)

/-- Where a key belongs depends on the number of blocks only. -/
theorem locate_congr {other : BlockedFilter} (same : filter.blocks.length = other.blocks.length)
    (key : UInt64) : filter.locate key = other.locate key := by
  rw [locate, locate, same]

theorem locate_lt (positive : 0 < filter.blocks.length) (key : UInt64) :
    (filter.locate key).1 < filter.blocks.length :=
  Nat.mod_lt _ positive

/-- Only the block of the key changes. -/
theorem getElem?_blocks_insert (filter : BlockedFilter) (key : UInt64) (i : Nat) :
    (filter.insert key).blocks[i]? = filter.blocks[i]?.map fun block =>
      if (filter.locate key).1 = i then List.zipWith (· ||| ·) block (filter.locate key).2
      else block :=
  getElem?_modify _ _ _ _

theorem marks_insert_self (positive : 0 < filter.blocks.length) (key : UInt64) :
    (filter.insert key).Marks key := by
  unfold Marks
  rw [locate_congr (length_blocks_insert filter key), getElem?_blocks_insert]
  cases stored : filter.blocks[(filter.locate key).1]? with
  | none =>
    have beyond := List.getElem?_eq_none_iff.mp stored
    exact absurd (locate_lt positive key) (not_lt.mpr beyond)
  | some block =>
    rw [Option.map_some, if_pos rfl]
    exact ⟨_, rfl, covers_or_right block _⟩

theorem Marks.insert (marks : filter.Marks key) (other : UInt64) :
    (filter.insert other).Marks key := by
  obtain ⟨block, stored, covered⟩ := marks
  unfold Marks
  rw [locate_congr (length_blocks_insert filter other), getElem?_blocks_insert, stored,
    Option.map_some]
  refine ⟨_, rfl, ?_⟩
  split
  · exact covers_or_of _ covered
  · exact covered

theorem marks_foldl_insert {keys : List UInt64} (positive : 0 < filter.blocks.length)
    (known : key ∈ keys ∨ filter.Marks key) :
    (keys.foldl BlockedFilter.insert filter).Marks key := by
  induction keys generalizing filter with
  | nil =>
    rcases known with member | marks
    · cases member
    · exact marks
  | cons first keys ih =>
    rw [foldl_cons]
    apply ih (by rwa [length_blocks_insert])
    rcases known with member | marks
    · rcases mem_cons.mp member with rfl | later
      · exact Or.inr (marks_insert_self positive key)
      · exact Or.inl later
    · exact Or.inr (marks.insert first)

/-- A filter marks every key it was built over, whatever it was sized for. -/
theorem marks_build {keys : List UInt64} (member : key ∈ keys) (hint bitsPerKey : Nat) :
    (build keys hint bitsPerKey).Marks key := by
  apply marks_foldl_insert _ (Or.inl member)
  rw [length_replicate]
  exact Nat.lt_of_lt_of_le Nat.one_pos (le_max_right _ _)

/-! ## The size of the blocks -/

/-- Every block has all its words. -/
def Wide (filter : BlockedFilter) : Prop :=
  ∀ block ∈ filter.blocks, block.length = blockWords

@[simp]
theorem length_pattern (hash : UInt64 → UInt64) (rounds : Nat) (h : UInt64)
    (words : List UInt64) : (pattern hash rounds h words).length = words.length := by
  induction rounds generalizing h words with
  | zero => rfl
  | succ rounds ih =>
    rw [pattern, ih, length_modify]

theorem Wide.insert (wide : filter.Wide) (key : UInt64) : (filter.insert key).Wide := by
  intro block member
  obtain ⟨i, at_i⟩ := mem_iff_getElem?.mp member
  rw [getElem?_blocks_insert, Option.map_eq_some_iff] at at_i
  obtain ⟨before, stored, rfl⟩ := at_i
  have eight := wide before (mem_of_getElem? stored)
  split
  · rw [length_zipWith, eight, locate, length_pattern, length_replicate, Nat.min_self]
  · exact eight

theorem wide_build (keys : List UInt64) (hint bitsPerKey : Nat) :
    (build keys hint bitsPerKey).Wide := by
  unfold build
  dsimp only
  generalize max ((hint * _ % 2 ^ 64 + (blockBits - 1)) / blockBits) 1 = blocks
  have empty : Wide ⟨List.replicate blocks (List.replicate blockWords 0)⟩ := by
    intro block member
    rw [eq_of_mem_replicate member, length_replicate]
  generalize (⟨List.replicate blocks (List.replicate blockWords 0)⟩ : BlockedFilter) = filter
    at empty
  induction keys generalizing filter with
  | nil => exact empty
  | cons key keys ih => exact ih _ (empty.insert key)

/-! ## Bytes -/

/-- The bytes of one block. -/
theorem length_blockBytes (block : List UInt64) :
    (block.flatMap fun word => putLe 8 word.toNat).length = block.length * 8 := by
  induction block with
  | nil => rfl
  | cons word block ih =>
    rw [flatMap_cons, length_append, length_putLe, ih,
      length_cons, Nat.succ_mul, Nat.add_comm]

theorem length_encode (wide : filter.Wide) :
    filter.encode.length = 8 + filter.blocks.length * blockWords * 8 := by
  have words : (filter.blocks.flatMap fun block =>
      block.flatMap fun word => putLe 8 word.toNat).length =
        filter.blocks.length * blockWords * 8 := by
    obtain ⟨blocks⟩ := filter
    change ∀ block ∈ blocks, block.length = blockWords at wide
    induction blocks with
    | nil => rfl
    | cons block blocks ih =>
      rw [flatMap_cons, length_append, length_blockBytes,
        wide block mem_cons_self, ih
          fun other member => wide other (mem_cons_of_mem block member),
        length_cons, Nat.succ_mul, Nat.add_mul, Nat.add_comm]
  rw [encode, length_append, length_append, length_putLe, length_putLe, words]

/-- A filter with fewer than 2^32 blocks reads back as it was. -/
theorem decode_encode (wide : filter.Wide) (few : filter.blocks.length < 2 ^ 32) :
    decode filter.encode = .ok filter := by
  have whole := holds_self filter.encode
  rw [encode, holds_append, holds_append, length_putLe, length_append, length_putLe,
    length_putLe] at whole
  obtain ⟨⟨magicHeld, countHeld⟩, wordsHeld⟩ := whole
  rw [← encode] at magicHeld countHeld wordsHeld
  have magic : getLe 4 filter.encode 0 = filterMagic := getLe_of_holds magicHeld
  have count : getLe 4 filter.encode 4 = filter.blocks.length := by
    rw [getLe_of_holds countHeld]
    exact Nat.mod_eq_of_lt few
  have words : ∀ i block, filter.blocks[i]? = some block →
      (List.range blockWords).mapM (readWord filter.encode i) = .ok block := by
    intro i block at_i
    have eight := wide block (mem_of_getElem? at_i)
    rw [← eight]
    apply mapM_range_eq_ok
    intro w word at_w
    have size : ∀ block ∈ filter.blocks,
        (block.flatMap fun word => putLe 8 word.toNat).length = 64 := by
      intro block member
      rw [length_blockBytes, wide block member]
      rfl
    have blockHeld := wordsHeld.item_of_mem size at_i
    have held := blockHeld.item (fun word => length_putLe 8 word.toNat) at_w
    have place : 8 + (i * blockWords + w) * 8 = 0 + 4 + 4 + i * 64 + w * 8 := by
      change 8 + (i * 8 + w) * 8 = _
      omega
    rw [readWord, place, readLe_of_holds (by decide) (by simpa using held) word.toNat_lt]
    change Except.ok (UInt64.ofNat word.toNat) = _
    rw [UInt64.ofNat_toNat]
  rw [decode]
  dsimp only
  rw [ensure_of (by rw [length_encode wide]; exact Nat.le_add_right _ _), ok_bind, magic,
    ensure_of rfl, ok_bind, count, ensure_of (length_encode wide), ok_bind,
    mapM_range_eq_ok words]
  rfl

/-- The checks a decoded string has passed, and the words that were read. -/
theorem of_decode_eq_ok (decoded : decode data = .ok filter) :
    getLe 4 data 0 = filterMagic ∧ data.length = 8 + getLe 4 data 4 * blockWords * 8 ∧
      filter.blocks = (List.range (getLe 4 data 4)).map fun block =>
        (List.range blockWords).map fun word =>
          UInt64.ofNat (getLe 8 data (8 + (block * blockWords + word) * 8)) := by
  rw [decode] at decoded
  dsimp only at decoded
  rw [ensure_bind_eq_ok_iff, ensure_bind_eq_ok_iff, ensure_bind_eq_ok_iff] at decoded
  obtain ⟨-, magic, length, read⟩ := decoded
  refine ⟨magic, length, ?_⟩
  have words : (List.range (getLe 4 data 4)).mapM (fun block =>
      (List.range blockWords).mapM (readWord data block)) =
        .ok ((List.range (getLe 4 data 4)).map fun block =>
          (List.range blockWords).map fun word =>
            UInt64.ofNat (getLe 8 data (8 + (block * blockWords + word) * 8))) := by
    apply mapM_eq_ok
    intro block isBlock
    apply mapM_eq_ok
    intro word isWord
    have inside : 8 + (block * blockWords + word) * 8 + 8 ≤ data.length := by
      have lastBlock := mem_range.mp isBlock
      have lastWord : word < 8 := mem_range.mp isWord
      change data.length = 8 + getLe 4 data 4 * 8 * 8 at length
      change 8 + (block * 8 + word) * 8 + 8 ≤ _
      omega
    rw [readWord, readLe, if_pos inside]
    rfl
  rw [words] at read
  cases read
  rfl

/-- The word at a place, written back. -/
theorem putLe_word {start : Nat} (inside : start + 8 ≤ data.length) :
    putLe 8 (UInt64.ofNat (getLe 8 data start)).toNat = (data.drop start).take 8 := by
  have fits : getLe 8 data start < 2 ^ 64 := getLe_lt inside
  rw [UInt64.toNat_ofNat', Nat.mod_eq_of_lt fits, putLe_getLe inside]

/-- What a decoder accepts is the encoding of what it returns. -/
theorem encode_of_decode (decoded : decode data = .ok filter) : filter.encode = data := by
  obtain ⟨magic, length, blocks⟩ := of_decode_eq_ok decoded
  change data.length = 8 + getLe 4 data 4 * 8 * 8 at length
  have small : getLe 4 data 4 < 256 ^ 4 := getLe_lt (by omega)
  have header : putLe 4 filterMagic ++ putLe 4 filter.blocks.length = data.take 8 := by
    rw [blocks, length_map, length_range, ← magic, putLe_getLe (by omega),
      putLe_getLe (by omega), drop_zero, ← take_add]
  have block : ∀ i ∈ List.range (getLe 4 data 4),
      (((List.range blockWords).map fun word =>
        UInt64.ofNat (getLe 8 data (8 + (i * blockWords + word) * 8))).flatMap
          fun word => putLe 8 word.toNat) = ((data.drop 8).drop (i * 64)).take 64 := by
    intro i isBlock
    have lastBlock := mem_range.mp isBlock
    rw [flatMap_map, ← flatMap_windows _ 8 8]
    apply flatMap_congr
    intro word isWord
    have lastWord : word < 8 := mem_range.mp isWord
    change putLe 8 (UInt64.ofNat (getLe 8 data (8 + (i * 8 + word) * 8))).toNat = _
    rw [putLe_word (by omega), drop_drop, drop_drop]
    congr 2
    omega
  have words : (filter.blocks.flatMap fun block => block.flatMap fun word =>
      putLe 8 word.toNat) = data.drop 8 := by
    rw [blocks, flatMap_map, flatMap_congr block, flatMap_windows, take_of_length_le]
    rw [length_drop]
    omega
  rw [encode, header, words, take_append_drop]

/-! ## Filters from any bytes -/

/-- A filter with a block answers every probe. -/
theorem exists_mayContain (positive : 0 < filter.blocks.length) (key : UInt64) :
    ∃ answer, filter.mayContain key = .ok answer := by
  rw [mayContain, if_neg positive.ne']
  dsimp only
  rw [getElem?_eq_getElem (locate_lt positive key)]
  exact ⟨_, rfl⟩

/-- A probe of a filter that was decoded answers, and the filter is encoded as the bytes
it came from, except for the header that announces no blocks. -/
theorem decoded_filter_answers_iff (data : List UInt8) :
    (∀ filter, decode data = .ok filter →
      (∀ key, ∃ answer, filter.mayContain key = .ok answer) ∧ filter.encode = data) ↔
    data ≠ putLe 4 filterMagic ++ putLe 4 0 := by
  constructor
  · rintro answers rfl
    have decoded : decode (encode ⟨[]⟩) = .ok ⟨[]⟩ := decode_encode (by simp [Wide]) (by decide)
    obtain ⟨answer, probed⟩ := (answers _ decoded).1 0
    cases probed
  · intro proper filter decoded
    have encoded := encode_of_decode decoded
    refine ⟨exists_mayContain ?_, encoded⟩
    rw [Nat.pos_iff_ne_zero, ne_eq, length_eq_zero_iff]
    intro empty
    apply proper
    rw [← encoded, encode, empty]
    rfl

/-- Eight bytes that announce no blocks are accepted, and the first probe panics. -/
theorem filter_without_blocks_panics :
    decode [0x31, 0x46, 0x4C, 0x42, 0, 0, 0, 0] = .ok ⟨[]⟩ ∧
      mayContain ⟨[]⟩ 7 = .error .panic :=
  ⟨rfl, rfl⟩

end BlockedFilter

end Blaze
