import Mathlib.Tactic.Ring

/-!
# Numbers in byte strings

Fixed-width little-endian numbers and LEB128 variable-length numbers.  A byte
string is a list of bytes; a fixed-width write keeps the low bytes of its number.
-/

namespace Bytes

/-- The `width` low bytes of a number, least significant first. -/
def putLe : Nat → Nat → List UInt8
  | 0, _ => []
  | width + 1, v => UInt8.ofNat v :: putLe width (v / 256)

/-- The number a byte string writes, least significant byte first. -/
def ofLe : List UInt8 → Nat
  | [] => 0
  | byte :: bytes => byte.toNat + 256 * ofLe bytes

/-- The number in the `width` bytes that start at an offset. -/
def getLe (width : Nat) (data : List UInt8) (start : Nat) : Nat :=
  ofLe ((data.drop start).take width)

/-- LEB128: seven bits a byte, and the high bit on every byte but the last. -/
def putVarint (v : Nat) : List UInt8 :=
  if v < 0x80 then [UInt8.ofNat v] else (UInt8.ofNat v ||| 0x80) :: putVarint (v >>> 7)
termination_by v
decreasing_by
  rw [Nat.shiftRight_eq_div_pow]
  omega

@[simp]
theorem length_putLe (width v : Nat) : (putLe width v).length = width := by
  induction width generalizing v with
  | zero => rfl
  | succ width ih => rw [putLe, List.length_cons, ih]

/-- Reading a fixed-width number back keeps what fits. -/
theorem ofLe_putLe (width v : Nat) : ofLe (putLe width v) = v % 256 ^ width := by
  induction width generalizing v with
  | zero => rw [pow_zero, Nat.mod_one]; rfl
  | succ width ih =>
    have split : v % 256 ^ (width + 1) = v % 256 + 256 * (v / 256 % 256 ^ width) := by
      rw [pow_succ', Nat.mod_mul]
    rw [putLe, ofLe, ih, UInt8.toNat_ofNat', split]

theorem ofLe_lt (bytes : List UInt8) : ofLe bytes < 256 ^ bytes.length := by
  induction bytes with
  | nil => decide
  | cons byte bytes ih =>
    have small := byte.toNat_lt
    rw [ofLe, List.length_cons, pow_succ']
    omega

/-- Writing a number back that was read. -/
theorem putLe_ofLe (bytes : List UInt8) : putLe bytes.length (ofLe bytes) = bytes := by
  induction bytes with
  | nil => rfl
  | cons byte bytes ih =>
    have small := byte.toNat_lt
    have low : UInt8.ofNat (byte.toNat + 256 * ofLe bytes) = byte := by
      rw [← UInt8.toNat_inj, UInt8.toNat_ofNat']
      omega
    have high : (byte.toNat + 256 * ofLe bytes) / 256 = ofLe bytes := by omega
    rw [List.length_cons, putLe, ofLe, low, high, ih]

/-- The number at the start of a byte string. -/
theorem getLe_putLe_append (width v : Nat) (rest : List UInt8) :
    getLe width (putLe width v ++ rest) 0 = v % 256 ^ width := by
  rw [getLe, List.drop_zero, List.take_append_of_le_length (by simp), ← ofLe_putLe width v]
  rw [List.take_of_length_le (by simp)]

end Bytes
