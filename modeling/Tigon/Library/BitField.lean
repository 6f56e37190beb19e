import Mathlib.Data.Nat.Bitwise
import Mathlib.Tactic.Ring

namespace Tigon.Library

open BitVec

variable {w off len : Nat}

-- The value of the `len` bits of a word that start at bit `off`.
def bitField (off len : Nat) (x : BitVec w) : Nat :=
  x.toNat / 2 ^ off % 2 ^ len

-- Two words that differ at most in the field of `len` bits at `off`.
def SameOutside (off len : Nat) (x y : BitVec w) : Prop :=
  ∀ i, (i < off ∨ off + len ≤ i) → y.getLsbD i = x.getLsbD i

theorem bitField_lt (off len : Nat) (x : BitVec w) : bitField off len x < 2 ^ len :=
  Nat.mod_lt _ (Nat.two_pow_pos len)

theorem testBit_bitField (x : BitVec w) (i : Nat) :
    (bitField off len x).testBit i = (decide (i < len) && x.getLsbD (off + i)) := by
  rw [bitField, Nat.testBit_mod_two_pow, Nat.testBit_div_two_pow, testBit_toNat,
    add_comm]

theorem bitField_congr {x y : BitVec w}
    (h : ∀ i < len, y.getLsbD (off + i) = x.getLsbD (off + i)) :
    bitField off len y = bitField off len x := by
  apply Nat.eq_of_testBit_eq
  intro i
  rw [testBit_bitField, testBit_bitField]
  by_cases hi : i < len
  · rw [h i hi]
  · simp [hi]

theorem SameOutside.bitField_eq {x y : BitVec w} (h : SameOutside off len x y) {off' len' : Nat}
    (hapart : off' + len' ≤ off ∨ off + len ≤ off') : bitField off' len' y = bitField off' len' x :=
  bitField_congr fun i hi => h (off' + i) (by omega)

theorem SameOutside.trans {x y z : BitVec w} (hxy : SameOutside off len x y)
    (hyz : SameOutside off len y z) : SameOutside off len x z :=
  fun i hi => (hyz i hi).trans (hxy i hi)

theorem getLsbD_sub_shiftLeft {i : Nat} (x y : BitVec w) (hi : i < off) :
    (x - y <<< off).getLsbD i = x.getLsbD i := by
  by_cases hw : i < w
  · have hcancel : (x - y <<< off) + y <<< off = x := BitVec.sub_add_cancel _ _
    have hlow : (y <<< off).toNat % 2 ^ i = 0 := by
      rw [toNat_shiftLeft, Nat.mod_mod_of_dvd _ (Nat.pow_dvd_pow 2 hw.le),
        Nat.shiftLeft_eq]
      exact Nat.mod_eq_zero_of_dvd (Dvd.dvd.mul_left (Nat.pow_dvd_pow 2 hi.le) _)
    have hcarry : carry i (x - y <<< off) (y <<< off) false = false := by
      have hlt := Nat.mod_lt (x - y <<< off).toNat (Nat.two_pow_pos i)
      rw [carry, hlow, decide_eq_false_iff_not]
      simpa using hlt
    have hbit := getLsbD_add hw (x - y <<< off) (y <<< off)
    rw [hcancel, hcarry, getLsbD_shiftLeft] at hbit
    simpa [hi] using hbit.symm
  · rw [getLsbD_of_ge _ _ (not_lt.mp hw), getLsbD_of_ge _ _ (not_lt.mp hw)]

theorem toNat_shift_mask (x : BitVec w) (hlen : len ≤ w) :
    ((x >>> off) &&& BitVec.ofNat w (2 ^ len - 1)).toNat = bitField off len x := by
  have hmask : (2 ^ len - 1) % 2 ^ w = 2 ^ len - 1 :=
    Nat.mod_eq_of_lt (lt_of_lt_of_le (Nat.sub_lt (Nat.two_pow_pos len) Nat.one_pos)
      (Nat.pow_le_pow_right Nat.two_pos hlen))
  rw [toNat_and, toNat_ushiftRight, toNat_ofNat, hmask,
    Nat.shiftRight_eq_div_pow, Nat.and_two_pow_sub_one_eq_mod, bitField]

theorem toNat_ofNat_shiftLeft (off len : Nat) {c : Nat} (hc : c < 2 ^ len) (hw : off + len ≤ w) :
    (BitVec.ofNat w c <<< off).toNat = c * 2 ^ off := by
  have hlt : c * 2 ^ off < 2 ^ w := by
    calc c * 2 ^ off < 2 ^ len * 2 ^ off := Nat.mul_lt_mul_of_pos_right hc (Nat.two_pow_pos off)
      _ = 2 ^ (off + len) := by rw [← pow_add, add_comm]
      _ ≤ 2 ^ w := Nat.pow_le_pow_right Nat.two_pos hw
  have hcw : c < 2 ^ w := lt_of_lt_of_le hc (Nat.pow_le_pow_right Nat.two_pos (by omega))
  rw [toNat_shiftLeft, toNat_ofNat, Nat.mod_eq_of_lt hcw, Nat.shiftLeft_eq,
    Nat.mod_eq_of_lt hlt]

theorem toNat_eq_field_split (off len : Nat) (x : BitVec w) :
    x.toNat = x.toNat / 2 ^ (off + len) * 2 ^ (off + len)
      + bitField off len x * 2 ^ off + x.toNat % 2 ^ off := by
  have hdiv : x.toNat / 2 ^ (off + len) = x.toNat / 2 ^ off / 2 ^ len := by
    rw [pow_add, Nat.div_div_eq_div_mul]
  have hsplit := Nat.div_add_mod (x.toNat / 2 ^ off) (2 ^ len)
  have hlow := Nat.div_add_mod x.toNat (2 ^ off)
  rw [hdiv, bitField, pow_add]
  calc x.toNat = 2 ^ off * (x.toNat / 2 ^ off) + x.toNat % 2 ^ off := hlow.symm
    _ = 2 ^ off * (2 ^ len * (x.toNat / 2 ^ off / 2 ^ len) + x.toNat / 2 ^ off % 2 ^ len)
        + x.toNat % 2 ^ off := by rw [hsplit]
    _ = _ := by ring

section

variable {x y : BitVec w} {hi lo f g : Nat}

private theorem div_off_of_split (hg : g < 2 ^ len) (hlo : lo < 2 ^ off)
    (hy : y.toNat = hi * 2 ^ (off + len) + g * 2 ^ off + lo) :
    y.toNat / 2 ^ off = hi * 2 ^ len + g ∧ y.toNat % 2 ^ off = lo ∧
      y.toNat / 2 ^ (off + len) = hi := by
  have hval : y.toNat = lo + 2 ^ off * (hi * 2 ^ len + g) := by rw [hy, pow_add]; ring
  have hquot : y.toNat / 2 ^ off = hi * 2 ^ len + g := by
    rw [hval, Nat.add_mul_div_left _ _ (Nat.two_pow_pos off), Nat.div_eq_of_lt hlo, zero_add]
  refine ⟨hquot, ?_, ?_⟩
  · rw [hval, Nat.add_mul_mod_self_left, Nat.mod_eq_of_lt hlo]
  · rw [pow_add, ← Nat.div_div_eq_div_mul, hquot, mul_comm,
      Nat.mul_add_div (Nat.two_pow_pos len), Nat.div_eq_of_lt hg, add_zero]

theorem field_of_split (hg : g < 2 ^ len)
    (hy : y.toNat = x.toNat / 2 ^ (off + len) * 2 ^ (off + len) + g * 2 ^ off
      + x.toNat % 2 ^ off) :
    bitField off len y = g ∧ SameOutside off len x y := by
  obtain ⟨hquot, hlow, hhigh⟩ :=
    div_off_of_split hg (Nat.mod_lt _ (Nat.two_pow_pos off)) hy
  refine ⟨?_, ?_⟩
  · rw [bitField, hquot, add_comm, Nat.add_mul_mod_self_right, Nat.mod_eq_of_lt hg]
  · rintro i (hi | hi)
    · -- below the field both words have the same remainder
      have hmod := congrArg (fun n => Nat.testBit n i) hlow
      simpa only [Nat.testBit_mod_two_pow, hi, decide_true, Bool.true_and,
        testBit_toNat] using hmod
    · -- above the field both words have the same quotient
      obtain ⟨j, rfl⟩ := Nat.exists_eq_add_of_le hi
      have hdiv := congrArg (fun n => Nat.testBit n j) hhigh
      simpa only [Nat.testBit_div_two_pow, testBit_toNat, add_comm] using hdiv

end

variable {x : BitVec w} {c : Nat}

theorem field_add (hw : off + len ≤ w) (hc : bitField off len x + c < 2 ^ len) :
    bitField off len (x + BitVec.ofNat w c <<< off) = bitField off len x + c ∧
      SameOutside off len x (x + BitVec.ofNat w c <<< off) := by
  apply field_of_split hc
  have hsplit := toNat_eq_field_split off len x
  have hhigh : x.toNat / 2 ^ (off + len) < 2 ^ (w - (off + len)) := by
    rw [Nat.div_lt_iff_lt_mul (Nat.two_pow_pos _), ← pow_add, Nat.sub_add_cancel hw]
    exact x.isLt
  have hlow : x.toNat % 2 ^ off < 2 ^ off := Nat.mod_lt _ (Nat.two_pow_pos off)
  have hsum : x.toNat + c * 2 ^ off = x.toNat / 2 ^ (off + len) * 2 ^ (off + len)
      + (bitField off len x + c) * 2 ^ off + x.toNat % 2 ^ off := by
    nth_rewrite 1 [hsplit]
    ring
  have hlt : x.toNat + c * 2 ^ off < 2 ^ w := by
    calc x.toNat + c * 2 ^ off
        < x.toNat / 2 ^ (off + len) * 2 ^ (off + len) + (bitField off len x + c) * 2 ^ off
          + 2 ^ off := by rw [hsum]; exact Nat.add_lt_add_left hlow _
      _ = x.toNat / 2 ^ (off + len) * 2 ^ (off + len)
          + (bitField off len x + c + 1) * 2 ^ off := by ring
      _ ≤ x.toNat / 2 ^ (off + len) * 2 ^ (off + len) + 2 ^ len * 2 ^ off :=
          Nat.add_le_add_left (Nat.mul_le_mul_right _ hc) _
      _ = (x.toNat / 2 ^ (off + len) + 1) * 2 ^ (off + len) := by rw [pow_add]; ring
      _ ≤ 2 ^ (w - (off + len)) * 2 ^ (off + len) := Nat.mul_le_mul_right _ hhigh
      _ = 2 ^ w := by rw [← pow_add, Nat.sub_add_cancel hw]
  rw [toNat_add, toNat_ofNat_shiftLeft off len (by omega) hw, Nat.mod_eq_of_lt hlt,
    hsum]

theorem field_sub (hw : off + len ≤ w) (hc : c ≤ bitField off len x) :
    bitField off len (x - BitVec.ofNat w c <<< off) = bitField off len x - c ∧
      SameOutside off len x (x - BitVec.ofNat w c <<< off) := by
  have hfield := bitField_lt off len x
  apply field_of_split (by omega)
  have hsplit := toNat_eq_field_split off len x
  have hcoff : (BitVec.ofNat w c <<< off).toNat = c * 2 ^ off :=
    toNat_ofNat_shiftLeft off len (by omega) hw
  have hle : c * 2 ^ off ≤ bitField off len x * 2 ^ off := Nat.mul_le_mul_right _ hc
  rw [BitVec.toNat_sub_of_le (by rw [BitVec.le_def, hcoff]; omega), hcoff, Nat.sub_mul]
  omega

theorem getLsbD_field_mask (hw : off + len ≤ w) (i : Nat) :
    (BitVec.ofNat w (2 ^ len - 1) <<< off).getLsbD i
      = (decide (off ≤ i) && decide (i < off + len)) := by
  rw [BitVec.getLsbD_shiftLeft, BitVec.getLsbD_ofNat, Nat.testBit_two_pow_sub_one]
  by_cases hlow : i < off
  · simp [hlow, Nat.not_le.mpr hlow]
  · by_cases hhigh : i < off + len
    · simp [hlow, hhigh, not_lt.mp hlow, show i < w by omega, show i - off < w by omega,
        show i - off < len by omega]
    · simp [hhigh, show ¬ i - off < len by omega]

theorem field_clear (hw : off + len ≤ w) :
    bitField off len (x &&& ~~~(BitVec.ofNat w (2 ^ len - 1) <<< off)) = 0 ∧
      SameOutside off len x (x &&& ~~~(BitVec.ofNat w (2 ^ len - 1) <<< off)) := by
  have hbit : ∀ i, (x &&& ~~~(BitVec.ofNat w (2 ^ len - 1) <<< off)).getLsbD i
      = (x.getLsbD i && !(decide (off ≤ i) && decide (i < off + len))) := by
    intro i
    rw [BitVec.getLsbD_and, BitVec.getLsbD_not, getLsbD_field_mask hw]
    by_cases hi : i < w
    · simp [hi]
    · simp [getLsbD_of_ge x i (not_lt.mp hi)]
  refine ⟨?_, ?_⟩
  · apply Nat.eq_of_testBit_eq
    intro i
    rw [testBit_bitField, hbit, Nat.zero_testBit]
    by_cases hi : i < len <;> simp [hi]
  · rintro i (hi | hi)
    · rw [hbit]
      simp [Nat.not_le.mpr hi]
    · rw [hbit]
      simp [Nat.not_lt.mpr hi]

theorem field_clear_add {n : BitVec w} (hw : off + len ≤ w) (hn : n.toNat < 2 ^ len) :
    bitField off len ((x &&& ~~~(BitVec.ofNat w (2 ^ len - 1) <<< off)) + n <<< off) = n.toNat ∧
      SameOutside off len x ((x &&& ~~~(BitVec.ofNat w (2 ^ len - 1) <<< off)) + n <<< off) := by
  obtain ⟨hclear, hsame⟩ := field_clear (x := x) hw
  have hadd := field_add (c := n.toNat) hw (by rw [hclear, zero_add]; exact hn)
  rw [BitVec.ofNat_toNat, BitVec.setWidth_eq, hclear, zero_add] at hadd
  exact ⟨hadd.1, hsame.trans hadd.2⟩

-- Clearing the field and then setting it, as every setter of a packed word does.
theorem field_set (hw : off + len ≤ w) (hc : c < 2 ^ len) :
    bitField off len ((x &&& ~~~(BitVec.ofNat w (2 ^ len - 1) <<< off))
      ||| BitVec.ofNat w c <<< off) = c ∧
    SameOutside off len x ((x &&& ~~~(BitVec.ofNat w (2 ^ len - 1) <<< off))
      ||| BitVec.ofNat w c <<< off) := by
  obtain ⟨hclear, hsame⟩ := field_clear (x := x) hw
  have hhigh : ∀ i, len ≤ i → c.testBit i = false := fun i hi =>
    Nat.testBit_lt_two_pow (lt_of_lt_of_le hc (Nat.pow_le_pow_right Nat.two_pos hi))
  refine ⟨?_, ?_⟩
  · apply Nat.eq_of_testBit_eq
    intro i
    have hzero := congrArg (fun n => Nat.testBit n i) hclear
    simp only [testBit_bitField, Nat.zero_testBit] at hzero
    rw [testBit_bitField, getLsbD_or, Bool.and_or_distrib_left, hzero, Bool.false_or,
      getLsbD_shiftLeft, getLsbD_ofNat]
    by_cases hi : i < len
    · simp [hi, show off + i < w by omega, show i < w by omega]
    · simp [hi, hhigh i (by omega)]
  · intro i hi
    rw [getLsbD_or, hsame i hi, getLsbD_shiftLeft, getLsbD_ofNat]
    rcases hi with hi | hi
    · simp [hi]
    · simp [hhigh (i - off) (by omega)]

theorem getLsbD_set_of_lt {i : Nat} (mask y : BitVec w) (hi : i < off) :
    ((x &&& ~~~(mask <<< off)) ||| y <<< off).getLsbD i = x.getLsbD i := by
  by_cases hw : i < w
  · simp [hi, hw]
  · simp [getLsbD_of_ge, not_lt.mp hw]

theorem and_field_mask_eq_zero (hw : off + len ≤ w) :
    x &&& BitVec.ofNat w (2 ^ len - 1) <<< off = 0#w ↔ bitField off len x = 0 := by
  constructor
  · intro hzero
    apply Nat.eq_of_testBit_eq
    intro i
    rw [testBit_bitField, Nat.zero_testBit]
    have hbit := congrArg (fun y => getLsbD y (off + i)) hzero
    simp only [getLsbD_and, getLsbD_field_mask hw, getLsbD_zero] at hbit
    by_cases hi : i < len
    · simpa [hi] using hbit
    · simp [hi]
  · intro hzero
    apply eq_of_getLsbD_eq
    intro i _
    rw [getLsbD_and, getLsbD_field_mask hw, getLsbD_zero]
    by_cases hi : off ≤ i ∧ i < off + len
    · have hbit := congrArg (fun n => Nat.testBit n (i - off)) hzero
      simp only [testBit_bitField, Nat.zero_testBit, Nat.add_sub_cancel' hi.1] at hbit
      simpa [show i - off < len by omega, hi.1, hi.2] using hbit
    · rw [not_and_or] at hi
      rcases hi with hi | hi <;> simp [hi]

-- One bit, as the code sets, clears and tests it.
theorem getLsbD_set_bit (i j : Nat) (hi : i < w) :
    (x ||| 1#w <<< i).getLsbD j = (decide (j = i) || x.getLsbD j) := by
  rw [getLsbD_or, ← twoPow_eq, getLsbD_twoPow]
  by_cases hij : i = j
  · subst hij; simp [hi]
  · simp [hij, Ne.symm hij]

theorem bitField_one (x : BitVec w) (i : Nat) : bitField i 1 x = (x.getLsbD i).toNat := by
  rw [← testBit_toNat, Nat.testBit_eq_decide_div_mod_eq, bitField, Nat.pow_one]
  rcases Nat.mod_two_eq_zero_or_one (x.toNat / 2 ^ i) with h | h <;> simp [h]

theorem field_set_bit {i : Nat} (hi : i < w) :
    bitField i 1 (x ||| 1#w <<< i) = 1 ∧ SameOutside i 1 x (x ||| 1#w <<< i) := by
  refine ⟨by simp [bitField_one, getLsbD_set_bit i i hi], fun j hj => ?_⟩
  rw [getLsbD_set_bit i j hi, decide_eq_false (by omega), Bool.false_or]

theorem getLsbD_clear_bit (i j : Nat) (hi : i < w) :
    (x &&& ~~~(1#w <<< i)).getLsbD j = (!decide (j = i) && x.getLsbD j) := by
  rw [getLsbD_and, getLsbD_not, ← twoPow_eq, getLsbD_twoPow]
  by_cases hij : i = j
  · subst hij; simp [hi]
  · by_cases hj : j < w
    · simp [hij, Ne.symm hij, hj]
    · simp [getLsbD_of_ge, not_lt.mp hj]

theorem test_bit_eq_getLsbD (i : Nat) (hi : i < w) :
    ((x &&& 1#w <<< i) != 0#w) = x.getLsbD i := by
  have hbit : ∀ j, (x &&& 1#w <<< i).getLsbD j = (decide (j = i) && x.getLsbD i) := by
    intro j
    rw [getLsbD_and, ← twoPow_eq, getLsbD_twoPow]
    by_cases hij : i = j
    · subst hij; simp [hi]
    · simp [hij, Ne.symm hij]
  rw [Bool.eq_iff_iff, bne_iff_ne]
  constructor
  · intro hne
    by_contra hb
    refine hne (eq_of_getLsbD_eq fun j _ => ?_)
    rw [hbit, eq_false_of_ne_true hb, Bool.and_false, getLsbD_zero]
  · intro hb hzero
    have := hbit i
    simp [hzero, hb] at this

end Tigon.Library
