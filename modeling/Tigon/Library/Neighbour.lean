import Mathlib.Data.Finset.Max

namespace Tigon.Library

open Finset

-- The neighbours of a key in a finite set of keys, which need not hold the key itself.
section Neighbour

variable {K : Type} [LinearOrder K]

def nextIn (s : Finset K) (k : K) : Option K :=
  if h : (s.filter fun m => k < m).Nonempty then some ((s.filter fun m => k < m).min' h) else none

def prevIn (s : Finset K) (k : K) : Option K := @nextIn Kᵒᵈ _ s k

variable {s : Finset K} {j k n p : K}

theorem nextIn_eq_some :
    nextIn s k = some n ↔ n ∈ s ∧ k < n ∧ ∀ m ∈ s, k < m → n ≤ m := by
  unfold nextIn
  constructor
  · intro h
    split at h
    · rename_i hne
      cases h
      obtain ⟨hmem, hlt⟩ := mem_filter.mp (min'_mem _ hne)
      exact ⟨hmem, hlt, fun m hm hkm => min'_le _ _ (mem_filter.mpr ⟨hm, hkm⟩)⟩
    · cases h
  · rintro ⟨hmem, hlt, hmin⟩
    have hne : (s.filter fun m => k < m).Nonempty := ⟨n, mem_filter.mpr ⟨hmem, hlt⟩⟩
    rw [dif_pos hne]
    have hmin' := mem_filter.mp (min'_mem _ hne)
    congr 1
    exact le_antisymm (min'_le _ _ (mem_filter.mpr ⟨hmem, hlt⟩))
      (hmin _ hmin'.1 hmin'.2)

theorem nextIn_eq_none : nextIn s k = none ↔ ∀ m ∈ s, m ≤ k := by
  unfold nextIn
  constructor
  · intro h m hm
    split at h
    · cases h
    · rename_i hempty
      rw [not_nonempty_iff_eq_empty, filter_eq_empty_iff] at hempty
      exact not_lt.mp (hempty hm)
  · intro h
    rw [dif_neg]
    rintro ⟨m, hm⟩
    obtain ⟨hmem, hlt⟩ := mem_filter.mp hm
    exact absurd (h m hmem) (not_le.mpr hlt)

theorem prevIn_eq_some :
    prevIn s k = some p ↔ p ∈ s ∧ p < k ∧ ∀ m ∈ s, m < k → m ≤ p :=
  @nextIn_eq_some Kᵒᵈ _ s k p

theorem nextIn_congr {s' : Finset K} (h : ∀ m, k < m → (m ∈ s' ↔ m ∈ s)) :
    nextIn s' k = nextIn s k := by
  have hfilter : (s'.filter fun m => k < m) = s.filter fun m => k < m := by
    ext m
    simp only [mem_filter]
    constructor
    · rintro ⟨hm, hlt⟩
      exact ⟨(h m hlt).mp hm, hlt⟩
    · rintro ⟨hm, hlt⟩
      exact ⟨(h m hlt).mpr hm, hlt⟩
  unfold nextIn
  simp only [hfilter]

theorem prevIn_of_nextIn (hk : k ∈ s) (h : nextIn s k = some n) : prevIn s n = some k := by
  obtain ⟨-, hlt, hmin⟩ := nextIn_eq_some.mp h
  refine prevIn_eq_some.mpr ⟨hk, hlt, fun m hm hmn => ?_⟩
  by_contra hkm
  exact absurd (hmin m hm (not_le.mp hkm)) (not_le.mpr hmn)

theorem nextIn_of_prevIn (hk : k ∈ s) (h : prevIn s k = some p) : nextIn s p = some k :=
  @prevIn_of_nextIn Kᵒᵈ _ s k p hk h

theorem nextIn_insert (hk : k ∈ s) (hkj : k ≠ j) (h : prevIn s j ≠ some k) :
    nextIn (insert j s) k = nextIn s k := by
  rcases lt_or_gt_of_ne hkj with hlt | hgt
  · -- some key of the set lies between k and j
    have hbetween : ∃ m ∈ s, k < m ∧ m < j := by
      by_contra hno
      refine h (prevIn_eq_some.mpr ⟨hk, hlt, fun m hm hmj => ?_⟩)
      by_contra hkm
      exact hno ⟨m, hm, not_le.mp hkm, hmj⟩
    obtain ⟨m, hm, hkm, hmj⟩ := hbetween
    cases hn : nextIn s k with
    | none => exact absurd (nextIn_eq_none.mp hn m hm) (not_le.mpr hkm)
    | some n =>
      obtain ⟨hmem, hkn, hmin⟩ := nextIn_eq_some.mp hn
      refine nextIn_eq_some.mpr ⟨mem_insert_of_mem hmem, hkn, fun m' hm' hkm' => ?_⟩
      rcases mem_insert.mp hm' with rfl | hm'
      · exact (hmin m hm hkm).trans hmj.le
      · exact hmin m' hm' hkm'
  · refine nextIn_congr fun m hm => ?_
    rw [mem_insert]
    exact or_iff_right (ne_of_gt (hgt.trans hm))

theorem prevIn_insert (hk : k ∈ s) (hkj : k ≠ j) (h : nextIn s j ≠ some k) :
    prevIn (insert j s) k = prevIn s k :=
  @nextIn_insert Kᵒᵈ _ s j k hk hkj h

theorem nextIn_erase (hk : k ∈ s) (h : prevIn s j ≠ some k) :
    nextIn (s.erase j) k = nextIn s k := by
  cases hn : nextIn s k with
  | none =>
    refine nextIn_eq_none.mpr fun m hm => ?_
    exact nextIn_eq_none.mp hn m (mem_of_mem_erase hm)
  | some n =>
    obtain ⟨hmem, hkn, hmin⟩ := nextIn_eq_some.mp hn
    have hnj : n ≠ j := by
      rintro rfl
      exact h (prevIn_of_nextIn hk hn)
    exact nextIn_eq_some.mpr ⟨mem_erase.mpr ⟨hnj, hmem⟩, hkn,
      fun m hm hkm => hmin m (mem_of_mem_erase hm) hkm⟩

theorem prevIn_erase (hk : k ∈ s) (h : nextIn s j ≠ some k) :
    prevIn (s.erase j) k = prevIn s k :=
  @nextIn_erase Kᵒᵈ _ s j k hk h

end Neighbour

end Tigon.Library
