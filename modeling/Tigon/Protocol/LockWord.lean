import Tigon.Library.BitField
import Tigon.Library.ReadersWriter

namespace Tigon.Protocol.LockWord

open Tigon.Library

abbrev Word := BitVec 64

-- [write lock bit (1) | read lock bit (9) -- 512 - 1 locks | seq id (54)], the layout
-- of the lock words of TwoPLHelper and CalvinHelper.
@[simp]
def LOCK_BIT_OFFSET : Nat := 54
@[simp]
def LOCK_BIT_MASK : Word := 0x3ff#64
@[simp]
def READ_LOCK_BIT_OFFSET : Nat := 54
@[simp]
def READ_LOCK_BIT_MASK : Word := 0x1ff#64
@[simp]
def WRITE_LOCK_BIT_OFFSET : Nat := 63
@[simp]
def WRITE_LOCK_BIT_MASK : Word := 0x1#64

def is_read_locked (value : Word) : Bool :=
  (value &&& READ_LOCK_BIT_MASK <<< READ_LOCK_BIT_OFFSET) != 0#64

def is_write_locked (value : Word) : Bool :=
  (value &&& WRITE_LOCK_BIT_MASK <<< WRITE_LOCK_BIT_OFFSET) != 0#64

def read_lock_num (value : Word) : Word :=
  (value >>> READ_LOCK_BIT_OFFSET) &&& READ_LOCK_BIT_MASK

def read_lock_max : Word := READ_LOCK_BIT_MASK

def remove_lock_bit (value : Word) : Word :=
  value &&& ~~~(LOCK_BIT_MASK <<< LOCK_BIT_OFFSET)

def addReader (old_value : Word) : Word := old_value + 1#64 <<< READ_LOCK_BIT_OFFSET

def addWriter (old_value : Word) : Word :=
  old_value + WRITE_LOCK_BIT_MASK <<< WRITE_LOCK_BIT_OFFSET

def dropReader (old_value : Word) : Word := old_value - 1#64 <<< READ_LOCK_BIT_OFFSET

def dropWriter (old_value : Word) : Word := old_value - 1#64 <<< WRITE_LOCK_BIT_OFFSET

def view (value : Word) : LockView := ⟨bitField 54 9 value, is_write_locked value⟩

variable {value other : Word}

@[simp]
theorem is_write_locked_eq : is_write_locked value = (view value).writer := rfl

theorem writer_view : (view value).writer = value.getLsbD 63 :=
  test_bit_eq_getLsbD 63 (by decide)

@[simp]
theorem is_read_locked_eq : is_read_locked value = ((view value).readers != 0) := by
  rw [Bool.eq_iff_iff, is_read_locked, bne_iff_ne, bne_iff_ne, Ne, Ne, not_iff_not]
  exact @and_field_mask_eq_zero 64 54 9 value (by decide)

theorem toNat_read_lock_num : (read_lock_num value).toNat = (view value).readers :=
  @toNat_shift_mask 64 54 9 value (by decide)

@[simp]
theorem read_lock_num_eq_max :
    (read_lock_num value == read_lock_max) = ((view value).readers == 511) := by
  rw [Bool.eq_iff_iff, beq_iff_eq, beq_iff_eq, ← toNat_read_lock_num, ← BitVec.toNat_inj]
  rfl

theorem readers_view_le (value : Word) : (view value).readers ≤ 511 :=
  Nat.le_of_lt_succ (bitField_lt 54 9 value)

theorem remove_lock_bit_congr (h : ∀ i < 54, other.getLsbD i = value.getLsbD i) :
    remove_lock_bit other = remove_lock_bit value := by
  obtain ⟨hother, hsame⟩ := @field_clear 64 54 10 other (by decide)
  obtain ⟨hvalue, hsame'⟩ := @field_clear 64 54 10 value (by decide)
  apply BitVec.eq_of_getLsbD_eq
  intro i hi
  by_cases hlow : i < 54
  · rw [remove_lock_bit, remove_lock_bit]
    exact ((hsame i (.inl hlow)).trans (h i hlow)).trans (hsame' i (.inl hlow)).symm
  · have hbit := congrArg (fun n => Nat.testBit n (i - 54)) (hother.trans hvalue.symm)
    simp only [testBit_bitField, show i - 54 < 10 by omega, decide_true, Bool.true_and,
      show 54 + (i - 54) = i by omega] at hbit
    exact hbit

theorem getLsbD_remove_lock_bit {i : Nat} (hi : i < 54) :
    (remove_lock_bit value).getLsbD i = value.getLsbD i :=
  (@field_clear 64 54 10 value (by decide)).2 i (.inl hi)

theorem eq_of_view_eq (hview : view other = view value)
    (hseq : remove_lock_bit other = remove_lock_bit value) : other = value := by
  obtain ⟨hreaders, hwriter⟩ := LockView.mk.injEq .. ▸ hview
  apply BitVec.eq_of_getLsbD_eq
  intro i hi
  by_cases hlow : i < 54
  · rw [← getLsbD_remove_lock_bit hlow, hseq, getLsbD_remove_lock_bit hlow]
  · by_cases hmid : i < 63
    · have hbit := congrArg (fun n => Nat.testBit n (i - 54)) hreaders
      simpa only [testBit_bitField, show i - 54 < 9 by omega, decide_true, Bool.true_and,
        show 54 + (i - 54) = i by omega] using hbit
    · obtain rfl : i = 63 := by omega
      rw [← writer_view, ← writer_view, hview]

private theorem view_of_readers {readers : Nat} (hreaders : bitField 54 9 other = readers)
    (hsame : SameOutside 54 9 value other) :
    view other = { view value with readers := readers } ∧
      remove_lock_bit other = remove_lock_bit value := by
  refine ⟨?_, remove_lock_bit_congr fun i hi => hsame i (.inl hi)⟩
  have hwriter : (view other).writer = (view value).writer := by
    rw [writer_view, writer_view, hsame 63 (.inr (by decide))]
  rw [view, hreaders]
  exact congrArg (LockView.mk readers) hwriter

private theorem view_of_writer {writer : Nat} (hwriter : bitField 63 1 other = writer)
    (hsame : SameOutside 63 1 value other) :
    view other = { view value with writer := writer.testBit 0 } ∧
      remove_lock_bit other = remove_lock_bit value := by
  refine ⟨?_, remove_lock_bit_congr fun i hi => hsame i (.inl (by omega))⟩
  have hreaders : bitField 54 9 other = bitField 54 9 value :=
    bitField_congr fun i hi => hsame (54 + i) (.inl (by omega))
  have hbit : (view other).writer = writer.testBit 0 := by
    rw [writer_view, ← hwriter, testBit_bitField]
    rfl
  rw [view, hreaders]
  exact congrArg (LockView.mk _) hbit

theorem view_addReader (hmax : (view value).readers ≠ 511) :
    view (addReader value) = (view value).acquire .read ∧
      remove_lock_bit (addReader value) = remove_lock_bit value := by
  have hle := readers_view_le value
  have hlt : bitField 54 9 value + 1 < 2 ^ 9 := by
    have : (view value).readers = bitField 54 9 value := rfl
    omega
  obtain ⟨hreaders, hsame⟩ := @field_add 64 54 9 value 1 (by decide) hlt
  exact view_of_readers hreaders hsame

theorem view_dropReader (hpos : 0 < (view value).readers) :
    view (dropReader value) = (view value).release .read ∧
      remove_lock_bit (dropReader value) = remove_lock_bit value := by
  obtain ⟨hreaders, hsame⟩ := @field_sub 64 54 9 value 1 (by decide) hpos
  exact view_of_readers hreaders hsame

private theorem bitField_writer : bitField 63 1 value = (view value).writer.toNat := by
  apply Nat.eq_of_testBit_eq
  intro i
  rw [testBit_bitField, writer_view]
  by_cases hi : i = 0
  · subst hi
    cases value.getLsbD 63 <;> rfl
  · have hone : Nat.testBit 1 i = false :=
      Nat.testBit_lt_two_pow (Nat.one_lt_two_pow hi)
    cases value.getLsbD 63 <;> simp [hi, hone]

theorem view_addWriter (hfree : (view value).writer = false) :
    view (addWriter value) = (view value).acquire .write ∧
      remove_lock_bit (addWriter value) = remove_lock_bit value := by
  have hzero : bitField 63 1 value = 0 := by rw [bitField_writer, hfree]; rfl
  obtain ⟨hwriter, hsame⟩ :=
    @field_add 64 63 1 value 1 (by decide) (by rw [hzero]; decide)
  rw [hzero] at hwriter
  exact view_of_writer hwriter hsame

theorem view_dropWriter (hheld : (view value).writer = true) :
    view (dropWriter value) = (view value).release .write ∧
      remove_lock_bit (dropWriter value) = remove_lock_bit value := by
  have hone : bitField 63 1 value = 1 := by rw [bitField_writer, hheld]; rfl
  obtain ⟨hwriter, hsame⟩ := @field_sub 64 63 1 value 1 (by decide) (by rw [hone])
  rw [hone] at hwriter
  exact view_of_writer hwriter hsame

end Tigon.Protocol.LockWord
