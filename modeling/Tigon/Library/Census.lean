import Mathlib.Data.Set.Card

namespace Tigon.Library

variable {τ : Type} {P Q : τ → Prop} {t : τ} {n : Nat}

def Census (P : τ → Prop) (n : Nat) : Prop := {t | P t}.encard = n

namespace Census

theorem none (h : ∀ u, ¬ P u) : Census P 0 := by
  have hset : {u | P u} = ∅ := Set.eq_empty_of_forall_notMem h
  unfold Census
  rw [hset]
  exact Set.encard_empty

theorem gain (h : Census P n) (ht : ¬ P t) (hQ : ∀ u, Q u ↔ u = t ∨ P u) : Census Q (n + 1) := by
  have hset : {u | Q u} = insert t {u | P u} := Set.ext hQ
  have hcard := Set.encard_insert_of_notMem (show t ∉ {u | P u} from ht)
  unfold Census at h ⊢
  rw [hset, hcard, h]
  rfl

theorem pos (h : Census P n) (ht : P t) : 0 < n := by
  have hne : {u | P u}.encard ≠ 0 := Set.encard_ne_zero_of_mem (show t ∈ {u | P u} from ht)
  unfold Census at h
  rw [h] at hne
  have hn : n ≠ 0 := fun hn => hne (by rw [hn]; rfl)
  omega

theorem loss (h : Census P n) (ht : P t) (hQ : ∀ u, Q u ↔ u ≠ t ∧ P u) : Census Q (n - 1) := by
  have hpos := h.pos ht
  have hset : {u | Q u} = {u | P u} \ {t} := by
    ext u
    rw [Set.mem_sdiff, Set.mem_singleton_iff]
    exact (hQ u).trans and_comm
  have hcard := Set.encard_sdiff_singleton_add_one (show t ∈ {u | P u} from ht)
  unfold Census at h ⊢
  rw [h] at hcard
  rw [hset]
  obtain ⟨m, rfl⟩ : ∃ m, n = m + 1 := ⟨n - 1, by omega⟩
  rw [Nat.cast_add, Nat.cast_one] at hcard
  exact ENat.add_left_injective_of_ne_top ENat.one_ne_top hcard

end Census

def AtMost (P : τ → Prop) (n : Nat) : Prop := {t | P t}.encard ≤ n

namespace AtMost

theorem mono (h : AtMost P n) (hQ : ∀ u, Q u → P u) : AtMost Q n :=
  (Set.encard_le_encard (show {u | Q u} ⊆ {u | P u} from hQ)).trans h

theorem none (h : ∀ u, ¬ P u) : AtMost P n := by
  have hset : {u | P u} = ∅ := Set.eq_empty_of_forall_notMem h
  unfold AtMost
  rw [hset, Set.encard_empty]
  exact zero_le

theorem gain (h : AtMost P n) (hQ : ∀ u, Q u → u = t ∨ P u) : AtMost Q (n + 1) := by
  have hsub : {u | Q u} ⊆ insert t {u | P u} := hQ
  calc {u | Q u}.encard ≤ (insert t {u | P u}).encard := Set.encard_le_encard hsub
    _ ≤ {u | P u}.encard + 1 := Set.encard_insert_le _ _
    _ ≤ (n : ℕ∞) + 1 := by gcongr; exact h
    _ = ((n + 1 : ℕ) : ℕ∞) := by push_cast; rfl

theorem pos (h : AtMost P n) (ht : P t) : 0 < n := by
  have hone : 1 ≤ {u | P u}.encard := Set.one_le_encard_iff_nonempty.mpr ⟨t, ht⟩
  exact_mod_cast hone.trans h

theorem loss (h : AtMost P n) (ht : P t) (hQ : ∀ u, Q u → u ≠ t ∧ P u) : AtMost Q (n - 1) := by
  have hpos := h.pos ht
  have hsub : insert t {u | Q u} ⊆ {u | P u} := by
    rintro u (rfl | hu)
    · exact ht
    · exact (hQ u hu).2
  have hcard := Set.encard_insert_of_notMem (show t ∉ {u | Q u} from fun hu => (hQ t hu).1 rfl)
  have hle := (Set.encard_le_encard hsub).trans h
  rw [hcard] at hle
  obtain ⟨m, rfl⟩ : ∃ m, n = m + 1 := ⟨n - 1, by omega⟩
  push_cast at hle
  exact (ENat.add_le_add_iff_right ENat.one_ne_top).mp hle

end AtMost

end Tigon.Library
