import Mathlib.Algebra.Order.Ring.Nat

namespace Tigon.Library

namespace LittleEndian

def toBytes : Nat → Nat → List (BitVec 8)
  | 0, _ => []
  | n + 1, x => BitVec.ofNat 8 x :: toBytes n (x / 256)

def ofBytes : List (BitVec 8) → Nat
  | [] => 0
  | b :: bs => b.toNat + 256 * ofBytes bs

@[simp]
theorem length_toBytes (n x : Nat) : (toBytes n x).length = n := by
  induction n generalizing x with
  | zero => rfl
  | succ n ih => simp [toBytes, ih]

theorem ofBytes_toBytes {n x : Nat} (h : x < 256 ^ n) : ofBytes (toBytes n x) = x := by
  induction n generalizing x with
  | zero =>
    have hx : x = 0 := by simpa using h
    simp [toBytes, ofBytes, hx]
  | succ n ih =>
    have hlt : x / 256 < 256 ^ n := by
      apply Nat.div_lt_of_lt_mul
      rw [Nat.pow_succ] at h
      omega
    have hmod := Nat.mod_add_div x 256
    simp only [toBytes, ofBytes, ih hlt, BitVec.toNat_ofNat]
    omega

end LittleEndian

end Tigon.Library
