import Tigon.TwoPLPasha.Metadata.Lemmas

namespace Tigon.TwoPLPasha

open Tigon.Library

namespace TwoPLPashaMetadataShared

-- The coherence bit of a host: its cached copy of the SCC data may be read.
def scc_bit (m : TwoPLPashaMetadataShared) (host : Host) : Bool :=
  m.is_bit_set (host + SCC_BITS_OFFSET)

variable (m : TwoPLPashaMetadataShared) (host : Host)

theorem scc_bit_eq : m.scc_bit host = m.atomic_word.getLsbD (host + 47) := by
  have hhost := host.isLt
  rw [scc_bit, SCC_BITS_OFFSET, is_bit_set_eq _ (by omega)]

private theorem scc_bit_set_bit {k : Nat} (hk : k < 47) :
    (m.set_bit k).scc_bit host = m.scc_bit host := by
  have hne : ¬ (host + 47 : Nat) = k := by omega
  rw [scc_bit_eq, scc_bit_eq, set_bit, getLsbD_set_bit _ _ (by omega)]
  simp [hne]

private theorem scc_bit_clear_bit {k : Nat} (hk : k < 47) :
    (m.clear_bit k).scc_bit host = m.scc_bit host := by
  have hne : ¬ (host + 47 : Nat) = k := by omega
  rw [scc_bit_eq, scc_bit_eq, clear_bit, getLsbD_clear_bit _ _ (by omega)]
  simp [hne]

@[simp]
theorem scc_bit_set_next_key_real_bit :
    m.set_next_key_real_bit.scc_bit host = m.scc_bit host :=
  scc_bit_set_bit m host (by decide)

@[simp]
theorem scc_bit_clear_next_key_real_bit :
    m.clear_next_key_real_bit.scc_bit host = m.scc_bit host :=
  scc_bit_clear_bit m host (by decide)

@[simp]
theorem scc_bit_set_prev_key_real_bit :
    m.set_prev_key_real_bit.scc_bit host = m.scc_bit host :=
  scc_bit_set_bit m host (by decide)

@[simp]
theorem scc_bit_clear_prev_key_real_bit :
    m.clear_prev_key_real_bit.scc_bit host = m.scc_bit host :=
  scc_bit_clear_bit m host (by decide)

@[simp]
theorem scc_bit_set_write_locked : m.set_write_locked.scc_bit host = m.scc_bit host :=
  scc_bit_set_bit m host (by decide)

@[simp]
theorem scc_bit_clear_write_locked : m.clear_write_locked.scc_bit host = m.scc_bit host :=
  scc_bit_clear_bit m host (by decide)

@[simp]
theorem scc_bit_set_is_data_modified_since_moved_in :
    m.set_is_data_modified_since_moved_in.scc_bit host = m.scc_bit host :=
  scc_bit_set_bit m host (by decide)

@[simp]
theorem scc_bit_clear_is_data_modified_since_moved_in :
    m.clear_is_data_modified_since_moved_in.scc_bit host = m.scc_bit host :=
  scc_bit_clear_bit m host (by decide)

private theorem scc_bit_of_sameOutside {m' : TwoPLPashaMetadataShared}
    (h : SameOutside 42 5 m.atomic_word m'.atomic_word) : m'.scc_bit host = m.scc_bit host := by
  rw [scc_bit_eq, scc_bit_eq]
  exact h _ (.inr (by omega))

theorem scc_bit_increase_reader_count (h : m.fields.readers < 31) :
    m.increase_reader_count.scc_bit host = m.scc_bit host :=
  scc_bit_of_sameOutside m host (m.field_increase_reader_count h).2

theorem scc_bit_decrease_reader_count (h : 0 < m.fields.readers) :
    m.decrease_reader_count.scc_bit host = m.scc_bit host :=
  scc_bit_of_sameOutside m host (m.field_decrease_reader_count h).2

theorem scc_bit_set_reader_count {n : Word} (h : n.toNat < 32) :
    (m.set_reader_count n).scc_bit host = m.scc_bit host :=
  scc_bit_of_sameOutside m host (m.field_set_reader_count h).2

@[simp]
theorem scc_bit_clear_all_scc_bits : m.clear_all_scc_bits.scc_bit host = false := by
  have hhost := host.isLt
  have hzero := (@field_clear 64 47 16 m.atomic_word (by decide)).1
  have hbit := @testBit_bitField 64 47 16 m.clear_all_scc_bits.atomic_word host
  rw [scc_bit_eq, add_comm]
  rw [show bitField 47 16 m.clear_all_scc_bits.atomic_word = 0 from hzero, Nat.zero_testBit] at hbit
  simpa using hbit.symm

@[simp]
theorem scc_bit_set_scc_bit (h : Host) :
    (m.set_scc_bit h).scc_bit host = (decide (host = h) || m.scc_bit host) := by
  have hh := h.isLt
  rw [scc_bit_eq, scc_bit_eq, set_scc_bit, set_bit, SCC_BITS_OFFSET, getLsbD_set_bit _ _ (by omega)]
  congr 1
  rw [decide_eq_decide, Fin.ext_iff]
  omega

@[simp]
theorem scc_bit_init_scc_metadata (h : Host) :
    (m.init_scc_metadata h).scc_bit host = decide (host = h) := by
  simp [init_scc_metadata]

@[simp]
theorem scc_bit_prepare_read (h : Host) :
    (m.prepare_read h).scc_bit host = (decide (host = h) || m.scc_bit host) := by
  rw [prepare_read]
  split
  · rename_i hset
    have hbit : m.scc_bit h = true := hset
    by_cases heq : host = h
    · subst heq
      simp [hbit]
    · simp [heq]
  · exact scc_bit_set_scc_bit m host h

theorem finish_write_eq_some (h : m.scc_bit host = true) :
    m.finish_write host = some (m.clear_all_scc_bits.set_scc_bit host) :=
  if_pos h

theorem scc_bit_finish_write {h : Host} {m' : TwoPLPashaMetadataShared}
    (hfinish : m.finish_write h = some m') : m'.scc_bit host = decide (host = h) := by
  rw [finish_write] at hfinish
  split at hfinish
  · cases hfinish
    simp
  · cases hfinish

end TwoPLPashaMetadataShared

end Tigon.TwoPLPasha
