import Mathlib

/-! Fixed-width little-endian numbers. -/
namespace Lib

abbrev Byte := Fin 256

instance neZero : NeZero 256 := ⟨by decide⟩

/-- The low bytes of a number, the lowest first. -/
def toBytes : Nat → Nat → List Byte
  | 0, _ => []
  | width + 1, n => Fin.ofNat 256 n :: toBytes width (n / 256)

def ofBytes : List Byte → Nat
  | [] => 0
  | b :: bytes => b + 256 * ofBytes bytes

@[simp] theorem length_toBytes (width n : Nat) : (toBytes width n).length = width := by
  induction width generalizing n with
  | zero => rfl
  | succ width ih => simp [toBytes, ih]

theorem ofBytes_toBytes (width : Nat) (fits : n < 256 ^ width) : ofBytes (toBytes width n) = n := by
  induction width generalizing n with
  | zero =>
    rw [Nat.pow_zero, Nat.lt_one_iff] at fits
    rw [fits]
    rfl
  | succ width ih =>
    rw [Nat.pow_succ] at fits
    simp only [toBytes, ofBytes, Fin.ofNat, ih (Nat.div_lt_of_lt_mul (Nat.mul_comm 256 _ ▸ fits))]
    exact Nat.mod_add_div n 256

end Lib
