import Blaze.Lib.ByteReader
import Mathlib.Data.Nat.Digits.Defs

/-!
# Variable-length numbers on any bytes

The reader collects seven bits a byte and stops after ten bytes.  Its accumulator
has 64 bits, of which nine digits fill 63, so of the tenth digit only the lowest bit
is kept.  On every other byte string the number it returns is the value of the
digits it has read, and what the writer puts down is read back wherever it stands.
-/

namespace Blaze

open Bytes

variable {last : UInt8} {low shift start : Nat} {bytes front data : List UInt8}

/-- The digits of a byte string in base 128, the lowest first. -/
def digits (bytes : List UInt8) : List Nat :=
  bytes.map fun byte => byte.toNat % 128

/-- The number that a byte string spells in base 128. -/
def valueOf (bytes : List UInt8) : Nat :=
  Nat.ofDigits 128 (digits bytes)

/-- The bytes at an offset are nine that continue and a tenth that ends the number
with a digit of more than one bit. -/
def Spills (data : List UInt8) (start : Nat) : Prop :=
  ∃ front last, front ++ [last] <+: data.drop start ∧ front.length = 9 ∧
    (∀ byte ∈ front, 0x80 ≤ byte.toNat) ∧ 2 ≤ last.toNat ∧ last.toNat < 0x80

theorem valueOf_cons (byte : UInt8) (bytes : List UInt8) :
    valueOf (byte :: bytes) = byte.toNat % 128 + 128 * valueOf bytes := by
  simp [valueOf, digits, Nat.ofDigits_cons]

theorem valueOf_singleton {byte : UInt8} (final : byte.toNat < 0x80) :
    valueOf [byte] = byte.toNat := by
  simp [valueOf, digits, Nat.mod_eq_of_lt final]

theorem valueOf_append_singleton (front : List UInt8) (final : last.toNat < 0x80) :
    valueOf (front ++ [last]) = valueOf front + 128 ^ front.length * last.toNat := by
  rw [valueOf, digits, List.map_append, Nat.ofDigits_append, List.length_map]
  rw [show Nat.ofDigits 128 ([last].map fun byte => byte.toNat % 128) = last.toNat from
    valueOf_singleton final]
  rfl

theorem valueOf_lt (bytes : List UInt8) : valueOf bytes < 128 ^ bytes.length := by
  induction bytes with
  | nil => simp [valueOf, digits]
  | cons byte bytes ih =>
    have digit : byte.toNat % 128 < 128 := Nat.mod_lt _ (by decide)
    rw [valueOf_cons, List.length_cons, pow_succ]
    omega

/-! ## One digit -/

theorem and_digit (byte : UInt8) : byte.toNat &&& 0x7f = byte.toNat % 128 :=
  Nat.and_two_pow_sub_one_eq_mod byte.toNat 7

/-- The digit above the bits that were read: what does not fit is cut off. -/
theorem or_shiftLeft_mod {digit : Nat} (room : shift ≤ 64) (below : low < 2 ^ shift) :
    low ||| digit <<< shift % 2 ^ 64 = (low + digit * 2 ^ shift) % 2 ^ 64 := by
  have width : 2 ^ 64 = 2 ^ (64 - shift) * 2 ^ shift := by
    rw [← pow_add, Nat.sub_add_cancel room]
  have kept : digit * 2 ^ shift % 2 ^ 64 = digit % 2 ^ (64 - shift) * 2 ^ shift := by
    rw [width, Nat.mul_mod_mul_right]
  have bit : digit % 2 ^ (64 - shift) + 1 ≤ 2 ^ (64 - shift) := Nat.mod_lt _ (Nat.two_pow_pos _)
  have fits : low + digit % 2 ^ (64 - shift) * 2 ^ shift < 2 ^ 64 := by
    have bound := Nat.mul_le_mul_right (2 ^ shift) bit
    rw [Nat.succ_mul, ← width] at bound
    omega
  calc low ||| digit <<< shift % 2 ^ 64
      = low + digit % 2 ^ (64 - shift) * 2 ^ shift := by
        rw [Nat.shiftLeft_eq, kept, or_mul_two_pow below]
    _ = (low + digit * 2 ^ shift) % 2 ^ 64 := by
        rw [← Nat.add_mod_mod, kept, Nat.mod_eq_of_lt fits]

/-! ## The loop -/

/-- The bytes of one number: a byte that ends it after bytes that continue it, at most
ten in all when it is read from the lowest bit on. -/
structure Spelled (bytes : List UInt8) (shift : Nat) (front : List UInt8) (last : UInt8) :
    Prop where
  stands : front ++ [last] <+: bytes
  continued : ∀ byte ∈ front, 0x80 ≤ byte.toNat
  final : last.toNat < 0x80
  room : shift + 7 * front.length < 64

/-- A number is read as the value of its digits, above what was read before and
within 64 bits. -/
theorem getVarintFrom_of_spelled (spelled : Spelled bytes shift front last)
    (below : low < 2 ^ shift) :
    getVarintFrom bytes low shift =
      .ok ((low + valueOf (front ++ [last]) * 2 ^ shift) % 2 ^ 64, front.length + 1) := by
  obtain ⟨stands, continued, final, room⟩ := spelled
  obtain ⟨rest, rfl⟩ := stands
  induction front generalizing low shift with
  | nil =>
    have digit : last.toNat % 128 = last.toNat := Nat.mod_eq_of_lt final
    simp only [List.nil_append, List.singleton_append, getVarintFrom, and_digit, digit,
      if_pos final, or_shiftLeft_mod (by omega) below, valueOf_singleton final,
      List.length_nil, Nat.zero_add]
  | cons byte front ih =>
    rw [List.length_cons] at room
    have small : byte.toNat % 128 + 1 ≤ 128 := Nat.mod_lt _ (by decide)
    have power : 2 ^ (shift + 7) = 128 * 2 ^ shift := by
      rw [pow_add, Nat.mul_comm]
      rfl
    have below' : low + byte.toNat % 128 * 2 ^ shift < 2 ^ (shift + 7) := by
      have bound := Nat.mul_le_mul_right (2 ^ shift) small
      rw [Nat.succ_mul] at bound
      omega
    have fits : 2 ^ (shift + 7) ≤ 2 ^ 64 := Nat.pow_le_pow_right (by decide) (by omega)
    have next := ih below'
      (fun other member => continued other (List.mem_cons_of_mem byte member)) (by omega)
    have value : low + valueOf (byte :: (front ++ [last])) * 2 ^ shift =
        low + byte.toNat % 128 * 2 ^ shift + valueOf (front ++ [last]) * 2 ^ (shift + 7) := by
      rw [valueOf_cons, power]
      ring
    have more : ¬ byte.toNat < 0x80 := Nat.not_lt.mpr (continued byte List.mem_cons_self)
    simp only [List.cons_append, getVarintFrom, and_digit, if_neg more,
      if_pos (show shift + 7 < 64 by omega), or_shiftLeft_mod (by omega) below,
      Nat.mod_eq_of_lt (below'.trans_le fits), value, List.length_cons]
    rw [next]
    rfl

/-- Whatever is read is spelled at the offset. -/
theorem spelled_of_getVarintFrom {v count : Nat} (room : shift < 64)
    (read : getVarintFrom bytes low shift = .ok (v, count)) :
    ∃ front last, Spelled bytes shift front last ∧ count = front.length + 1 := by
  induction bytes generalizing low shift v count with
  | nil => simp [getVarintFrom] at read
  | cons byte bytes ih =>
    by_cases final : byte.toNat < 0x80
    · simp only [getVarintFrom, if_pos final, Except.ok.injEq, Prod.mk.injEq] at read
      refine ⟨[], byte, ⟨?_, by simp, final, by simpa using room⟩, read.2.symm⟩
      simp
    · by_cases more : shift + 7 < 64
      · simp only [getVarintFrom, if_neg final, if_pos more] at read
        cases rest : getVarintFrom bytes
            (low ||| (byte.toNat &&& 0x7f) <<< shift % 2 ^ 64) (shift + 7) with
        | error fault =>
          rw [rest] at read
          cases read
        | ok result =>
          simp only [rest, Except.map, Except.ok.injEq, Prod.mk.injEq] at read
          obtain ⟨front, last, spelled, counted⟩ := ih more rest
          refine ⟨byte :: front, last, ⟨?_, ?_, spelled.final, ?_⟩, ?_⟩
          · simpa using spelled.stands
          · intro other member
            rcases List.mem_cons.mp member with rfl | later
            · exact Nat.le_of_not_lt final
            · exact spelled.continued other later
          · have bound := spelled.room
            rw [List.length_cons]
            omega
          · rw [← read.2, counted, List.length_cons]
      · simp [getVarintFrom, if_neg final, if_neg more] at read

/-! ## The value that is read -/

/-- A number of at most ten bytes fits into 64 bits unless the tenth digit has more
than one bit. -/
theorem valueOf_lt_iff (spelled : Spelled bytes 0 front last) :
    valueOf (front ++ [last]) < 2 ^ 64 ↔ ¬ (front.length = 9 ∧ 2 ≤ last.toNat) := by
  have final := spelled.final
  have low := valueOf_lt front
  rw [valueOf_append_singleton front final]
  by_cases long : front.length = 9
  · rw [long] at low ⊢
    omega
  · have short : front.length + 1 ≤ 9 := by
      have room := spelled.room
      omega
    have power : 128 ^ (front.length + 1) ≤ 128 ^ 9 := Nat.pow_le_pow_right (by decide) short
    have digit := Nat.mul_le_mul_left (128 ^ front.length) (Nat.le_of_lt_succ final)
    rw [pow_succ] at power
    omega

/-- A number that is spelled at an offset is returned within 64 bits, with the offset
behind it. -/
theorem getVarint_of_spelled (spelled : Spelled (data.drop start) 0 front last) :
    getVarint data start =
      .ok (valueOf (front ++ [last]) % 2 ^ 64, start + (front ++ [last]).length) := by
  rw [getVarint, getVarintFrom_of_spelled spelled (by decide), pow_zero, Nat.mul_one, Nat.zero_add,
    List.length_append, List.length_singleton]
  rfl

/-- The bytes from the offset to the one behind the number. -/
theorem Spelled.take (spelled : Spelled (data.drop start) 0 front last) :
    (data.drop start).take (start + (front ++ [last]).length - start) = front ++ [last] := by
  rw [Nat.add_sub_cancel_left]
  exact (List.prefix_iff_eq_take.mp spelled.stands).symm

/-- Whatever `getVarint` returns stands at its offset. -/
theorem spelled_of_getVarint {v next : Nat} (read : getVarint data start = .ok (v, next)) :
    ∃ front last, Spelled (data.drop start) 0 front last := by
  cases rest : getVarintFrom (data.drop start) 0 0 with
  | error fault =>
    rw [getVarint, rest] at read
    cases read
  | ok result =>
    obtain ⟨front, last, spelled, -⟩ := spelled_of_getVarintFrom (by decide) rest
    exact ⟨front, last, spelled⟩

theorem Spelled.spills_iff (spelled : Spelled (data.drop start) 0 front last) :
    Spills data start ↔ front.length = 9 ∧ 2 ≤ last.toNat := by
  constructor
  · rintro ⟨front', last', stands, nine, continued, bits, final⟩
    have other : Spelled (data.drop start) 0 front' last' := ⟨stands, continued, final, by omega⟩
    -- both are what the reader returns, so they have the same length
    have read := (getVarint_of_spelled other).symm.trans (getVarint_of_spelled spelled)
    have length : (front' ++ [last']).length = (front ++ [last]).length := by
      simp only [Except.ok.injEq, Prod.mk.injEq] at read
      exact Nat.add_left_cancel read.2
    have same := (other.take.symm.trans (by rw [length])).trans spelled.take
    obtain ⟨rfl, sameLast⟩ := List.append_inj' same rfl
    cases sameLast
    exact ⟨nine, bits⟩
  · rintro ⟨nine, bits⟩
    exact ⟨front, last, spelled.stands, nine, spelled.continued, bits, spelled.final⟩

/-- Wherever a number is read, it is the value of the digits up to the offset that is
returned, exactly when the bytes there are not nine that continue it and a last digit
of more than one bit; and what is written is read back from between any bytes. -/
theorem varint_reads_its_digits (data : List UInt8) (start : Nat) (before after : List UInt8)
    (v : UInt64) :
    ((∀ w next, getVarint data start = .ok (w, next) →
        w = valueOf ((data.drop start).take (next - start))) ↔ ¬ Spills data start) ∧
      getVarint (before ++ putVarint v.toNat ++ after) before.length =
        .ok (v.toNat, before.length + (putVarint v.toNat).length) := by
  constructor
  · constructor
    · intro agrees spills
      obtain ⟨front, last, stands, nine, continued, bits, final⟩ := spills
      have spelled : Spelled (data.drop start) 0 front last := ⟨stands, continued, final, by omega⟩
      have equal := agrees _ _ (getVarint_of_spelled spelled)
      rw [spelled.take] at equal
      have small : valueOf (front ++ [last]) < 2 ^ 64 := equal ▸ Nat.mod_lt _ (by decide)
      exact (valueOf_lt_iff spelled).mp small ⟨nine, bits⟩
    · intro whole w next read
      obtain ⟨front, last, spelled⟩ := spelled_of_getVarint read
      rw [getVarint_of_spelled spelled] at read
      simp only [Except.ok.injEq, Prod.mk.injEq] at read
      rw [← read.1, ← read.2, spelled.take]
      rw [spelled.spills_iff] at whole
      exact Nat.mod_eq_of_lt ((valueOf_lt_iff spelled).mpr whole)
  · exact getVarint_of_holds (holds_middle before (putVarint v.toNat) after) v.toNat_lt

/-- Nine bytes that continue the number 0 and a tenth with the digit 2 spell `2 ^ 64`
and are read as 0. -/
theorem varint_drops_a_digit :
    let bytes := List.replicate 9 0x80 ++ [0x02]
    getVarint bytes 0 = .ok (0, 10) ∧ valueOf (bytes.take 10) = 2 ^ 64 := by
  decide

end Blaze
