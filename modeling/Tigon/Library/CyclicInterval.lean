import Mathlib.Data.List.Nodup
import Mathlib.Data.Nat.ModEq

namespace Tigon.Library

open List

-- The `count` numbers below `n` that follow each other from `first` on, cyclically.
def cyclicInterval (n first count : Nat) : List Nat :=
  (List.range count).map fun i => (first + i) % n

variable {n first count : Nat}

@[simp]
theorem length_cyclicInterval : (cyclicInterval n first count).length = count := by
  simp [cyclicInterval]

theorem getElem?_cyclicInterval {i : Nat} (hi : i < count) :
    (cyclicInterval n first count)[i]? = some ((first + i) % n) := by
  simp [cyclicInterval, hi]

theorem lt_of_mem_cyclicInterval (hn : 0 < n) {c : Nat} (hc : c ∈ cyclicInterval n first count) :
    c < n := by
  obtain ⟨i, -, rfl⟩ := mem_map.mp hc
  exact Nat.mod_lt _ hn

theorem nodup_cyclicInterval (hcount : count ≤ n) : (cyclicInterval n first count).Nodup := by
  apply List.Nodup.map_on _ nodup_range
  intro i hi j hj heq
  rw [mem_range] at hi hj
  have hmod : i ≡ j [MOD n] := Nat.ModEq.add_left_cancel' first heq
  exact hmod.eq_of_lt_of_lt (by omega) (by omega)

theorem cyclicInterval_of_le (h : first + count ≤ n) :
    cyclicInterval n first count = List.range' first count := by
  rw [cyclicInterval, range'_eq_map_range]
  apply map_congr_left
  intro i hi
  rw [mem_range] at hi
  exact Nat.mod_eq_of_lt (by omega)

theorem cyclicInterval_append (m : Nat) :
    cyclicInterval n first (count + m)
      = cyclicInterval n first count ++ cyclicInterval n (first + count) m := by
  simp only [cyclicInterval, range_add, map_append, map_map]
  congr 2
  funext i
  simp [add_assoc]

theorem cyclicInterval_self : cyclicInterval n n count = cyclicInterval n 0 count := by
  simp [cyclicInterval]

theorem cyclicInterval_of_ge (hfirst : first < n) (h : n ≤ first + count)
    (hcount : count ≤ n) :
    cyclicInterval n first count
      = List.range' first (n - first) ++ List.range' 0 (first + count - n) := by
  have hbefore := @cyclicInterval_of_le n first (n - first) (by omega)
  have hafter := @cyclicInterval_of_le n 0 (first + count - n) (by omega)
  have hsplit := @cyclicInterval_append n first (n - first) (first + count - n)
  rw [show n - first + (first + count - n) = count by omega,
    show first + (n - first) = n by omega, cyclicInterval_self] at hsplit
  rw [hsplit, hbefore, hafter]

end Tigon.Library
