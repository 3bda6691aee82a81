import Blaze.Lib.Bytes
import Blaze.Lib.Fallible
import Mathlib.Data.Nat.Bitwise

/-!
# Reading byte strings

What a byte string holds at an offset, and readers over it.  A reader that meets
bytes it does not accept refuses them with a message; one that indexes outside of
the string panics.
-/

namespace Bytes

open List Fallible

variable {data bytes : List UInt8} {start stop width v low shift stride i digit : Nat}
  {ε α β : Type} {condition : Prop} {message : String}

/-- Why a reader stops. -/
inductive Fault where
  | refused (message : String)
  | panic
  deriving DecidableEq, Repr

/-- The bytes that stand at an offset. -/
def Holds (data : List UInt8) (start : Nat) (bytes : List UInt8) : Prop :=
  bytes <+: data.drop start

/-- Read a fixed-width number. -/
def readLe (width : Nat) (data : List UInt8) (start : Nat) : Except Fault Nat :=
  if start + width ≤ data.length then .ok (getLe width data start) else .error .panic

/-- A part of a byte string, when it is inside of it. -/
def slice (data : List UInt8) (start stop : Nat) : Option (List UInt8) :=
  if start ≤ stop ∧ stop ≤ data.length then some ((data.drop start).take (stop - start)) else none

/-- A part of a byte string that has to be inside of it. -/
def part (data : List UInt8) (start stop : Nat) : Except Fault (List UInt8) :=
  match slice data start stop with
  | none => .error .panic
  | some bytes => .ok bytes

/-- Refuse what does not meet a condition. -/
def ensure (condition : Prop) [Decidable condition] (message : String) : Except Fault Unit :=
  if condition then .ok () else .error (.refused message)

/-- Collect seven bits a byte into a 64-bit number, with the number of bytes read. -/
def getVarintFrom : List UInt8 → Nat → Nat → Except Fault (Nat × Nat)
  | [], _, _ => .error (.refused "varint runs past the end of the payload")
  | byte :: rest, v, shift =>
      let v := v ||| (byte.toNat &&& 0x7f) <<< shift % 2 ^ 64
      if byte.toNat < 0x80 then
        .ok (v, 1)
      else if shift + 7 < 64 then
        (getVarintFrom rest v (shift + 7)).map fun read => (read.1, read.2 + 1)
      else
        .error (.refused "varint longer than 64 bits")

/-- Read a variable-length number, with the offset after it. -/
def getVarint (data : List UInt8) (start : Nat) : Except Fault (Nat × Nat) :=
  (getVarintFrom (data.drop start) 0 0).map fun read => (read.1, start + read.2)

/-! ## What a string holds -/

theorem holds_append {first second : List UInt8} :
    Holds data start (first ++ second) ↔
      Holds data start first ∧ Holds data (start + first.length) second := by
  unfold Holds
  rw [← drop_drop]
  constructor
  · rintro ⟨rest, split⟩
    rw [← split, append_assoc, drop_left]
    exact ⟨⟨_, rfl⟩, ⟨rest, rfl⟩⟩
  · rintro ⟨⟨tail, split⟩, ⟨rest, inside⟩⟩
    rw [← split, drop_left] at inside
    rw [← split, ← inside]
    exact ⟨rest, append_assoc _ _ _⟩

theorem holds_self (bytes : List UInt8) : Holds bytes 0 bytes :=
  prefix_refl bytes

/-- A part of a string stands where it starts. -/
theorem holds_middle (before bytes after : List UInt8) :
    Holds (before ++ bytes ++ after) before.length bytes := by
  unfold Holds
  rw [append_assoc, drop_left]
  exact ⟨after, rfl⟩

/-- The later bytes stand further on. -/
theorem Holds.drop (holds : Holds data start bytes) {n : Nat} (inside : n ≤ bytes.length) :
    Holds data (start + n) (bytes.drop n) := by
  rw [← take_append_drop n bytes, holds_append, length_take, Nat.min_eq_left inside]
    at holds
  exact holds.2

/-- Bytes that stand in a string end inside of it. -/
theorem Holds.le_length (holds : Holds data start bytes) (nonempty : bytes ≠ []) :
    start + bytes.length ≤ data.length := by
  have fits := holds.length_le
  rw [length_drop] at fits
  have positive := length_pos_iff.mpr nonempty
  omega

theorem slice_middle (before bytes after : List UInt8) :
    slice (before ++ bytes ++ after) before.length (before.length + bytes.length) =
      some bytes := by
  rw [slice, if_pos ⟨Nat.le_add_right _ _, by simp⟩, Nat.add_sub_cancel_left, append_assoc,
    drop_left, take_left]

theorem slice_self (bytes : List UInt8) : slice bytes 0 bytes.length = some bytes := by
  rw [slice, if_pos ⟨Nat.zero_le _, le_rfl⟩, drop_zero, Nat.sub_zero, take_length]

section Sliced

variable (sliced : slice data start stop = some bytes)

include sliced

theorem holds_of_slice : Holds data start bytes := by
  unfold slice at sliced
  split at sliced
  · cases sliced
    exact take_prefix _ _
  · cases sliced

theorem length_of_slice : bytes.length = stop - start := by
  unfold slice at sliced
  split at sliced
  · next inside =>
      cases sliced
      rw [length_take, length_drop]
      omega
  · cases sliced

theorem bounds_of_slice : start ≤ stop ∧ stop ≤ data.length := by
  unfold slice at sliced
  split at sliced
  · next inside => exact inside
  · cases sliced

/-- A part of a string is not longer than the string. -/
theorem length_le_of_slice : bytes.length ≤ data.length :=
  (holds_of_slice sliced).length_le.trans (length_drop.trans_le (Nat.sub_le _ _))

end Sliced

/-- A part inside of the string is there. -/
theorem exists_slice (ordered : start ≤ stop) (inside : stop ≤ data.length) :
    ∃ bytes, slice data start stop = some bytes := by
  unfold slice
  rw [if_pos ⟨ordered, inside⟩]
  exact ⟨_, rfl⟩

/-- A reader does not panic when none of its steps does. -/
theorem bind_ne_panic {first : Except Fault α} {next : α → Except Fault β}
    (here : first ≠ .error .panic) (later : ∀ item, first = .ok item → next item ≠ .error .panic) :
    (first >>= next) ≠ .error .panic := by
  cases first with
  | error fault =>
    intro same
    cases same
    exact here rfl
  | ok item => exact later item rfl

theorem ensure_ne_panic (condition : Prop) [Decidable condition] (message : String) :
    ensure condition message ≠ .error .panic := by
  unfold ensure
  split <;> simp

theorem part_ne_panic (ordered : start ≤ stop) (inside : stop ≤ data.length) :
    part data start stop ≠ .error .panic := by
  unfold part slice
  rw [if_pos ⟨ordered, inside⟩]
  simp

theorem part_eq_ok_iff : part data start stop = .ok bytes ↔ slice data start stop = some bytes := by
  unfold part
  cases slice data start stop with
  | none => simp
  | some found => simp

theorem ensure_eq_ok_iff [Decidable condition] {result : Unit} :
    ensure condition message = .ok result ↔ condition := by
  unfold ensure
  split
  · next holds => exact iff_of_true rfl holds
  · next fails => simp [fails]

theorem ensure_of [Decidable condition] (holds : condition) (message : String) :
    ensure condition message = .ok () :=
  if_pos holds

/-- What follows a check is reached when it passes. -/
theorem ensure_bind_eq_ok_iff [Decidable condition] {next : Except Fault α} {result : α} :
    (do ensure condition message; next) = .ok result ↔ condition ∧ next = .ok result := by
  unfold ensure
  by_cases holds : condition
  · rw [if_pos holds]
    exact (and_iff_right holds).symm
  · rw [if_neg holds]
    constructor
    · intro impossible
      cases impossible
    · exact fun both => absurd both.1 holds

/-- Items that all take one stride stand one stride after the other. -/
theorem Holds.item_of_mem {α : Type*} {encode : α → List UInt8} {items : List α}
    (wide : ∀ item ∈ items, (encode item).length = stride)
    (holds : Holds data start (items.flatMap encode)) {item : α} (at_i : items[i]? = some item) :
    Holds data (start + i * stride) (encode item) := by
  induction items generalizing start i with
  | nil => cases at_i
  | cons first items ih =>
    rw [flatMap_cons, holds_append, wide first mem_cons_self] at holds
    cases i with
    | zero =>
      cases at_i
      rw [Nat.zero_mul]
      exact holds.1
    | succ i =>
      have next := ih
        (fun item member => wide item (mem_cons_of_mem first member)) holds.2 at_i
      rwa [Nat.add_assoc, ← Nat.add_comm (i * stride), ← Nat.succ_mul] at next

/-- The items of a table with a fixed stride stand one stride after the other. -/
theorem Holds.item {α : Type*} {encode : α → List UInt8}
    (wide : ∀ item, (encode item).length = stride) {items : List α}
    (holds : Holds data start (items.flatMap encode)) {item : α} (at_i : items[i]? = some item) :
    Holds data (start + i * stride) (encode item) :=
  holds.item_of_mem (fun item _ => wide item) at_i

theorem getLe_of_holds (holds : Holds data start (putLe width v)) :
    getLe width data start = v % 256 ^ width := by
  obtain ⟨rest, split⟩ := holds
  have read := getLe_putLe_append width v rest
  rw [getLe, drop_zero, split] at read
  exact read

theorem readLe_of_holds (positive : 0 < width) (holds : Holds data start (putLe width v))
    (fits : v < 256 ^ width) : readLe width data start = .ok v := by
  have inside := holds.le_length (ne_nil_of_length_pos (by simpa using positive))
  rw [length_putLe] at inside
  rw [readLe, if_pos inside, getLe_of_holds holds, Nat.mod_eq_of_lt fits]

theorem readLe_ne_panic (inside : start + width ≤ data.length) :
    readLe width data start ≠ .error .panic := by
  unfold readLe
  rw [if_pos inside]
  simp

theorem readLe_ne_refused (message : String) :
    readLe width data start ≠ .error (.refused message) := by
  unfold readLe
  split <;> simp

/-- The bytes that a fixed-width number was read from. -/
theorem slice_of_readLe (read : readLe width data start = .ok v) :
    ∃ bytes, slice data start (start + width) = some bytes ∧ ofLe bytes = v := by
  unfold readLe at read
  split at read
  · next inside =>
      cases read
      refine ⟨_, if_pos ⟨Nat.le_add_right _ _, inside⟩, ?_⟩
      rw [Nat.add_sub_cancel_left, getLe]
  · cases read

/-! ## Writing back what was read -/

theorem getLe_lt (inside : start + width ≤ data.length) : getLe width data start < 256 ^ width := by
  have bound := ofLe_lt ((data.drop start).take width)
  rwa [length_take, length_drop, Nat.min_eq_left (by omega)] at bound

theorem putLe_getLe (inside : start + width ≤ data.length) :
    putLe width (getLe width data start) = (data.drop start).take width := by
  have length : ((data.drop start).take width).length = width := by
    rw [length_take, length_drop, Nat.min_eq_left (by omega)]
  have back := putLe_ofLe ((data.drop start).take width)
  rwa [length] at back

/-- The windows of a byte string one after the other. -/
theorem flatMap_windows (data : List UInt8) (width count : Nat) :
    ((List.range count).flatMap fun i => (data.drop (i * width)).take width) =
      data.take (count * width) := by
  induction count with
  | zero => simp
  | succ count ih =>
    rw [range_succ, flatMap_append, ih, flatMap_singleton,
      Nat.succ_mul, take_add]

/-! ## Variable-length numbers -/

/-- The high bit of a byte. -/
theorem or_high {x : Nat} (low : x < 128) : x ||| 128 = x + 128 := by
  have split := Nat.two_pow_add_eq_or_of_lt (i := 7) low 1
  rw [Nat.or_comm, Nat.add_comm]
  exact split.symm

/-- A byte that continues a number carries its seven low bits. -/
theorem toNat_continued (v : Nat) : (UInt8.ofNat v ||| 0x80).toNat = v % 128 + 128 := by
  have low : v % 128 < 128 := Nat.mod_lt v (by decide)
  rw [UInt8.toNat_or, UInt8.toNat_ofNat']
  change v % 256 ||| 128 = v % 128 + 128
  rcases Nat.mod_two_eq_zero_or_one (v / 128) with even | odd
  · have byte : v % 256 = v % 128 := by omega
    rw [byte, or_high low]
  · have byte : v % 256 = v % 128 ||| 128 := by
      rw [or_high low]
      omega
    rw [byte, Nat.or_assoc, Nat.or_self, or_high low]

/-- Bits above the ones of a smaller number. -/
theorem or_mul_two_pow (below : low < 2 ^ shift) :
    low ||| digit * 2 ^ shift = low + digit * 2 ^ shift := by
  rw [Nat.or_comm, Nat.mul_comm, Nat.add_comm, ← Nat.two_pow_add_eq_or_of_lt below]

/-- Seven more bits above the ones that were read. -/
theorem or_shiftLeft (below : low < 2 ^ shift) (fits : digit * 2 ^ shift < 2 ^ 64) :
    low ||| digit <<< shift % 2 ^ 64 = low + digit * 2 ^ shift := by
  rw [Nat.shiftLeft_eq, Nat.mod_eq_of_lt fits, or_mul_two_pow below]

/-- Reading what was written, above the bits that were read before. -/
theorem getVarintFrom_putVarint (v : Nat) (room : shift < 64) (below : low < 2 ^ shift)
    (fits : v * 2 ^ shift < 2 ^ 64) (rest : List UInt8) :
    getVarintFrom (putVarint v ++ rest) low shift =
      .ok (low + v * 2 ^ shift, (putVarint v).length) := by
  induction v using Nat.strongRecOn generalizing low shift with
  | ind v ih =>
    rw [putVarint]
    by_cases last : v < 0x80
    · have byte : (UInt8.ofNat v).toNat = v := by
        rw [UInt8.toNat_ofNat', Nat.mod_eq_of_lt (by omega)]
      have digit : v &&& 0x7f = v := by
        rw [Nat.and_two_pow_sub_one_eq_mod v 7, Nat.mod_eq_of_lt last]
      rw [if_pos last, singleton_append, getVarintFrom, byte, digit, if_pos last,
        or_shiftLeft below fits]
      rfl
    · have digit : (v % 128 + 128) &&& 0x7f = v % 128 := by
        rw [Nat.and_two_pow_sub_one_eq_mod _ 7]
        omega
      have shifted : v >>> 7 = v / 128 := Nat.shiftRight_eq_div_pow v 7
      have power : 2 ^ (shift + 7) = 128 * 2 ^ shift := by
        rw [pow_add, Nat.mul_comm]
        rfl
      have more : shift + 7 < 64 := by
        apply (Nat.pow_lt_pow_iff_right (by decide : 1 < 2)).mp
        rw [power]
        exact (Nat.mul_le_mul_right _ (not_lt.mp last)).trans_lt fits
      have parts : v * 2 ^ shift = v % 128 * 2 ^ shift + v / 128 * 2 ^ (shift + 7) := by
        rw [power, ← Nat.mul_assoc, ← Nat.add_mul, Nat.mul_comm (v / 128), Nat.mod_add_div]
      have below' : low + v % 128 * 2 ^ shift < 2 ^ (shift + 7) := by
        have small : v % 128 ≤ 127 := Nat.le_of_lt_succ (Nat.mod_lt v (by decide))
        have bound := Nat.mul_le_mul_right (2 ^ shift) small
        omega
      have next := ih (v >>> 7) (by omega) more below' (by rw [shifted]; omega)
      rw [if_neg last, cons_append, getVarintFrom, toNat_continued, digit,
        or_shiftLeft below (by omega), if_neg (by omega), if_pos more, next]
      rw [shifted, parts, Nat.add_assoc]
      rfl

theorem getVarint_of_holds (holds : Holds data start (putVarint v)) (fits : v < 2 ^ 64) :
    getVarint data start = .ok (v, start + (putVarint v).length) := by
  obtain ⟨rest, split⟩ := holds
  have read := getVarintFrom_putVarint v (by decide : 0 < 64) (by decide : 0 < 2 ^ 0)
    (by rwa [pow_zero, Nat.mul_one]) rest
  rw [getVarint, ← split, read, pow_zero, Nat.mul_one, Nat.zero_add]
  rfl

theorem putVarint_ne_nil (v : Nat) : putVarint v ≠ [] := by
  rw [putVarint]
  split <;> simp

end Bytes
