import Mathlib.Data.Finset.Image

namespace Tigon.Library

open Finset

def lineOf (w b : Nat) : Nat := b / w * w

def lineLoop (w stop ptr : Nat) : List Nat :=
  if 0 < w ∧ ptr < stop then ptr :: lineLoop w stop (ptr + w) else []
termination_by stop - ptr

-- The lines such a loop visits for `len` bytes at `addr`, and those the bytes are in.
def lineWalk (w addr len : Nat) : Finset Nat :=
  (lineLoop w (addr + len) (lineOf w addr)).toFinset

def touched (w addr len : Nat) : Finset Nat :=
  (range len).image fun i => lineOf w (addr + i)

variable {w : Nat}

theorem lineOf_le (w b : Nat) : lineOf w b ≤ b := Nat.div_mul_le_self b w

theorem lineOf_mono (w : Nat) {a b : Nat} (h : a ≤ b) : lineOf w a ≤ lineOf w b :=
  Nat.mul_le_mul_right w (Nat.div_le_div_right h)

theorem mem_lineLoop (hw : 0 < w) {stop ptr l : Nat} :
    l ∈ lineLoop w stop ptr ↔ l < stop ∧ ∃ k, l = ptr + k * w := by
  fun_induction lineLoop w stop ptr with
  | case1 ptr h ih =>
    rw [List.mem_cons, ih]
    constructor
    · rintro (rfl | ⟨hl, k, rfl⟩)
      · exact ⟨h.2, 0, by omega⟩
      · exact ⟨hl, k + 1, by rw [Nat.add_mul]; omega⟩
    · rintro ⟨hl, k, rfl⟩
      cases k with
      | zero => exact Or.inl (by omega)
      | succ k => exact Or.inr ⟨hl, k, by rw [Nat.add_mul]; omega⟩
  | case2 ptr h =>
    have hstop : stop ≤ ptr := by omega
    constructor
    · nofun
    · rintro ⟨hl, k, rfl⟩
      omega

-- A loop visits the line of a byte from `addr` on exactly if that line starts before the end.
theorem lineOf_mem_lineWalk (hw : 0 < w) {addr len b : Nat} (hb : addr ≤ b) :
    lineOf w b ∈ lineWalk w addr len ↔ lineOf w b < addr + len := by
  rw [lineWalk, List.mem_toFinset, mem_lineLoop hw]
  refine and_iff_left ⟨b / w - addr / w, ?_⟩
  have hdiv : addr / w ≤ b / w := Nat.div_le_div_right hb
  rw [lineOf, lineOf, ← Nat.add_mul, Nat.add_sub_of_le hdiv]

-- It visits all lines of some bytes from `addr` on exactly if it gets to the last one.
theorem touched_subset_lineWalk (hw : 0 < w) {addr len a n : Nat} (ha : addr ≤ a) :
    touched w a (n + 1) ⊆ lineWalk w addr len ↔ lineOf w (a + n) < addr + len := by
  constructor
  · intro h
    have hlast : lineOf w (a + n) ∈ touched w a (n + 1) :=
      mem_image.mpr ⟨n, mem_range.mpr (by omega), rfl⟩
    exact (lineOf_mem_lineWalk hw (by omega)).mp (h hlast)
  · intro h l hl
    obtain ⟨i, hi, rfl⟩ := mem_image.mp hl
    rw [mem_range] at hi
    have hle := lineOf_mono w (show a + i ≤ a + n by omega)
    exact (lineOf_mem_lineWalk hw (by omega)).mpr (by omega)

theorem touched_subset_of_le (hw : 0 < w) {addr len a n : Nat} (ha : addr ≤ a)
    (hn : a + n ≤ addr + len) : touched w a n ⊆ lineWalk w addr len := by
  cases n with
  | zero => exact empty_subset _
  | succ n =>
    rw [touched_subset_lineWalk hw ha]
    have hle := lineOf_le w (a + n)
    omega

end Tigon.Library
