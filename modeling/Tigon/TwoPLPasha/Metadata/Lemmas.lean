import Tigon.TwoPLPasha.Metadata

namespace Tigon.TwoPLPasha

open BitVec Tigon.Library

namespace TwoPLPashaSharedDataSCC

variable {α : Type} (d : TwoPLPashaSharedDataSCC α)

def valid : Bool := d.get_flag valid_flag_index

@[simp]
theorem get_flag_valid : d.get_flag 0 = d.valid := rfl

@[simp]
theorem valid_set_flag : (d.set_flag 0).valid = true := by
  simp only [valid, get_flag, set_flag, valid_flag_index]
  rw [test_bit_eq_getLsbD 0 (by decide), getLsbD_set_bit 0 0 (by decide)]
  simp

@[simp]
theorem valid_clear_flag : (d.clear_flag 0).valid = false := by
  simp only [valid, get_flag, clear_flag, valid_flag_index]
  rw [test_bit_eq_getLsbD 0 (by decide), getLsbD_clear_bit 0 0 (by decide)]
  simp

@[simp]
theorem tid_set_flag (i : Nat) : (d.set_flag i).tid = d.tid := rfl

@[simp]
theorem tid_clear_flag (i : Nat) : (d.clear_flag i).tid = d.tid := rfl

@[simp]
theorem data_set_flag (i : Nat) : (d.set_flag i).data = d.data := rfl

@[simp]
theorem data_clear_flag (i : Nat) : (d.clear_flag i).data = d.data := rfl

@[simp]
theorem valid_with_tid_data (tid : Word) (data : α) :
    { d with tid := tid, data := data }.valid = d.valid := rfl

@[simp]
theorem valid_inc_ref_cnt : d.inc_ref_cnt.valid = d.valid := rfl

@[simp]
theorem tid_inc_ref_cnt : d.inc_ref_cnt.tid = d.tid := rfl

@[simp]
theorem data_inc_ref_cnt : d.inc_ref_cnt.data = d.data := rfl

end TwoPLPashaSharedDataSCC

namespace TwoPLPashaMetadataShared

-- The shared word unpacked, without the coherence bits and the latch.
structure Fields where
  scc_data : Word
  prev_real : Bool
  next_real : Bool
  mod_in : Bool
  writer : Bool
  readers : Nat
deriving DecidableEq

def fields (m : TwoPLPashaMetadataShared) : Fields where
  scc_data := m.get_scc_data
  prev_real := m.get_prev_key_real_bit
  next_real := m.get_next_key_real_bit
  mod_in := m.is_data_modified_since_moved_in
  writer := m.is_write_locked
  readers := bitField 42 5 m.atomic_word

variable (m : TwoPLPashaMetadataShared)

@[simp]
theorem get_scc_data_eq : m.get_scc_data = m.fields.scc_data := rfl

@[simp]
theorem is_data_modified_since_moved_in_eq :
    m.is_data_modified_since_moved_in = m.fields.mod_in := rfl

@[simp]
theorem is_write_locked_eq : m.is_write_locked = m.fields.writer := rfl

theorem is_bit_set_eq {i : Nat} (hi : i < 64) :
    m.is_bit_set i = m.atomic_word.getLsbD i :=
  test_bit_eq_getLsbD i hi

theorem toNat_get_reader_count : m.get_reader_count.toNat = m.fields.readers :=
  @toNat_shift_mask 64 42 5 m.atomic_word (by decide)

@[simp]
theorem get_reader_count_eq_max :
    (m.get_reader_count == get_reader_count_max) = (m.fields.readers == 31) := by
  rw [Bool.eq_iff_iff, beq_iff_eq, beq_iff_eq, ← toNat_get_reader_count, ← toNat_inj]
  rfl

@[simp]
theorem get_reader_count_pos :
    decide (0#64 < m.get_reader_count) = (m.fields.readers != 0) := by
  rw [Bool.eq_iff_iff, bne_iff_ne, decide_eq_true_iff, lt_def,
    toNat_get_reader_count, ← Nat.pos_iff_ne_zero]
  rfl

theorem readers_lt : m.fields.readers < 32 := bitField_lt 42 5 m.atomic_word

private theorem getLsbD_scc_data_mask (i : Nat) :
    (SCC_DATA_MASK <<< SCC_DATA_OFFSET).getLsbD i = decide (i < 37) := by
  simp only [SCC_DATA_MASK, SCC_DATA_OFFSET, shiftLeft_zero]
  rw [getLsbD_ofNat, show (0x1fffffffff : Nat) = 2 ^ 37 - 1 from rfl,
    Nat.testBit_two_pow_sub_one]
  by_cases hi : i < 37
  · simp [hi, show i < 64 by omega]
  · simp [hi]

theorem get_scc_data_congr {m' : TwoPLPashaMetadataShared}
    (h : ∀ i < 37, m'.atomic_word.getLsbD i = m.atomic_word.getLsbD i) :
    m'.get_scc_data = m.get_scc_data := by
  apply eq_of_getLsbD_eq
  intro i _
  rw [get_scc_data, get_scc_data, getLsbD_and, getLsbD_and, getLsbD_scc_data_mask]
  by_cases hi : i < 37
  · rw [h i hi]
  · simp [hi]

private theorem fields_of_bits {m' : TwoPLPashaMetadataShared} {f : Fields}
    (hscc : ∀ i < 37, m'.atomic_word.getLsbD i = m.atomic_word.getLsbD i)
    (hf : f.scc_data = m.fields.scc_data)
    (hprev : m'.atomic_word.getLsbD 38 = f.prev_real)
    (hnext : m'.atomic_word.getLsbD 39 = f.next_real)
    (hmod : m'.atomic_word.getLsbD 40 = f.mod_in)
    (hwriter : m'.atomic_word.getLsbD 41 = f.writer)
    (hreaders : bitField 42 5 m'.atomic_word = f.readers) : m'.fields = f := by
  cases f
  simp only [fields, Fields.mk.injEq]
  simp only [get_prev_key_real_bit, get_next_key_real_bit, is_data_modified_since_moved_in,
    is_write_locked, is_prev_key_real_bit_index, is_next_key_real_bit_index,
    is_data_modified_since_moved_in_bit_index, WRITE_LOCK_BIT_OFFSET]
  rw [is_bit_set_eq _ (by decide), is_bit_set_eq _ (by decide), is_bit_set_eq _ (by decide),
    is_bit_set_eq _ (by decide)]
  exact ⟨(get_scc_data_congr m hscc).trans hf.symm, hprev, hnext, hmod, hwriter, hreaders⟩

private theorem bits_of_fields :
    m.atomic_word.getLsbD 38 = m.fields.prev_real ∧ m.atomic_word.getLsbD 39 = m.fields.next_real ∧
    m.atomic_word.getLsbD 40 = m.fields.mod_in ∧ m.atomic_word.getLsbD 41 = m.fields.writer := by
  refine ⟨?_, ?_, ?_, ?_⟩ <;> exact (is_bit_set_eq m (by decide)).symm

private theorem readers_set_bit {k : Nat} (hk : k < 42 ∨ 47 ≤ k) (hk' : k < 64) :
    bitField 42 5 (m.set_bit k).atomic_word = m.fields.readers := by
  apply bitField_congr
  intro i hi
  rw [set_bit, getLsbD_set_bit k _ hk']
  have : ¬ 42 + i = k := by omega
  simp [this]

private theorem readers_clear_bit {k : Nat} (hk : k < 42 ∨ 47 ≤ k) (hk' : k < 64) :
    bitField 42 5 (m.clear_bit k).atomic_word = m.fields.readers := by
  apply bitField_congr
  intro i hi
  rw [clear_bit, getLsbD_clear_bit k _ hk']
  have : ¬ 42 + i = k := by omega
  simp [this]

private theorem fields_set_bit {k : Nat} (hk : 37 < k ∧ k < 42) {f : Fields}
    (hf : f = { m.fields with
      prev_real := decide (38 = k) || m.fields.prev_real
      next_real := decide (39 = k) || m.fields.next_real
      mod_in := decide (40 = k) || m.fields.mod_in
      writer := decide (41 = k) || m.fields.writer }) : (m.set_bit k).fields = f := by
  obtain ⟨h38, h39, h40, h41⟩ := bits_of_fields m
  have hk64 : k < 64 := by omega
  subst hf
  refine fields_of_bits m (fun i hi => ?_) rfl ?_ ?_ ?_ ?_ (readers_set_bit m (by omega) hk64)
  · rw [set_bit, getLsbD_set_bit k _ hk64]
    have : ¬ i = k := by omega
    simp [this]
  · rw [set_bit, getLsbD_set_bit k _ hk64, h38]
  · rw [set_bit, getLsbD_set_bit k _ hk64, h39]
  · rw [set_bit, getLsbD_set_bit k _ hk64, h40]
  · rw [set_bit, getLsbD_set_bit k _ hk64, h41]

private theorem fields_clear_bit {k : Nat} (hk : 37 < k ∧ k < 42) {f : Fields}
    (hf : f = { m.fields with
      prev_real := !decide (38 = k) && m.fields.prev_real
      next_real := !decide (39 = k) && m.fields.next_real
      mod_in := !decide (40 = k) && m.fields.mod_in
      writer := !decide (41 = k) && m.fields.writer }) : (m.clear_bit k).fields = f := by
  obtain ⟨h38, h39, h40, h41⟩ := bits_of_fields m
  have hk64 : k < 64 := by omega
  subst hf
  refine fields_of_bits m (fun i hi => ?_) rfl ?_ ?_ ?_ ?_ (readers_clear_bit m (by omega) hk64)
  · rw [clear_bit, getLsbD_clear_bit k _ hk64]
    have : ¬ i = k := by omega
    simp [this]
  · rw [clear_bit, getLsbD_clear_bit k _ hk64, h38]
  · rw [clear_bit, getLsbD_clear_bit k _ hk64, h39]
  · rw [clear_bit, getLsbD_clear_bit k _ hk64, h40]
  · rw [clear_bit, getLsbD_clear_bit k _ hk64, h41]

@[simp]
theorem fields_set_next_key_real_bit :
    m.set_next_key_real_bit.fields = { m.fields with next_real := true } :=
  fields_set_bit m (by decide) (by simp)

@[simp]
theorem fields_clear_next_key_real_bit :
    m.clear_next_key_real_bit.fields = { m.fields with next_real := false } :=
  fields_clear_bit m (by decide) (by simp)

@[simp]
theorem fields_set_prev_key_real_bit :
    m.set_prev_key_real_bit.fields = { m.fields with prev_real := true } :=
  fields_set_bit m (by decide) (by simp)

@[simp]
theorem fields_clear_prev_key_real_bit :
    m.clear_prev_key_real_bit.fields = { m.fields with prev_real := false } :=
  fields_clear_bit m (by decide) (by simp)

@[simp]
theorem fields_set_write_locked :
    m.set_write_locked.fields = { m.fields with writer := true } :=
  fields_set_bit m (by decide) (by simp)

@[simp]
theorem fields_clear_write_locked :
    m.clear_write_locked.fields = { m.fields with writer := false } :=
  fields_clear_bit m (by decide) (by simp)

@[simp]
theorem fields_set_is_data_modified_since_moved_in :
    m.set_is_data_modified_since_moved_in.fields = { m.fields with mod_in := true } :=
  fields_set_bit m (by decide) (by simp)

@[simp]
theorem fields_clear_is_data_modified_since_moved_in :
    m.clear_is_data_modified_since_moved_in.fields = { m.fields with mod_in := false } :=
  fields_clear_bit m (by decide) (by simp)

private theorem fields_of_sameOutside {m' : TwoPLPashaMetadataShared} {n : Nat}
    (hreaders : bitField 42 5 m'.atomic_word = n)
    (hsame : SameOutside 42 5 m.atomic_word m'.atomic_word) :
    m'.fields = { m.fields with readers := n } := by
  obtain ⟨h38, h39, h40, h41⟩ := bits_of_fields m
  exact fields_of_bits m (fun i hi => hsame i (by omega)) rfl ((hsame 38 (by omega)).trans h38)
    ((hsame 39 (by omega)).trans h39) ((hsame 40 (by omega)).trans h40)
    ((hsame 41 (by omega)).trans h41) hreaders

theorem field_increase_reader_count (h : m.fields.readers < 31) :
    bitField 42 5 m.increase_reader_count.atomic_word = m.fields.readers + 1 ∧
      SameOutside 42 5 m.atomic_word m.increase_reader_count.atomic_word :=
  @field_add 64 42 5 m.atomic_word 1 (by decide) (show m.fields.readers + 1 < 32 by omega)

theorem fields_increase_reader_count (h : m.fields.readers < 31) :
    m.increase_reader_count.fields = { m.fields with readers := m.fields.readers + 1 } := by
  obtain ⟨hreaders, hsame⟩ := m.field_increase_reader_count h
  exact fields_of_sameOutside m hreaders hsame

theorem field_decrease_reader_count (h : 0 < m.fields.readers) :
    bitField 42 5 m.decrease_reader_count.atomic_word = m.fields.readers - 1 ∧
      SameOutside 42 5 m.atomic_word m.decrease_reader_count.atomic_word :=
  @field_sub 64 42 5 m.atomic_word 1 (by decide) h

theorem fields_decrease_reader_count (h : 0 < m.fields.readers) :
    m.decrease_reader_count.fields = { m.fields with readers := m.fields.readers - 1 } := by
  obtain ⟨hreaders, hsame⟩ := m.field_decrease_reader_count h
  exact fields_of_sameOutside m hreaders hsame

theorem fields_decrease_reader_count_except :
    m.decrease_reader_count.fields
      = { m.fields with readers := m.decrease_reader_count.fields.readers } := by
  have hlow : ∀ i < 42, m.decrease_reader_count.atomic_word.getLsbD i = m.atomic_word.getLsbD i :=
    fun _ hi => getLsbD_sub_shiftLeft _ _ hi
  obtain ⟨h38, h39, h40, h41⟩ := bits_of_fields m
  exact fields_of_bits m (fun i hi => hlow i (by omega)) rfl ((hlow 38 (by omega)).trans h38)
    ((hlow 39 (by omega)).trans h39) ((hlow 40 (by omega)).trans h40)
    ((hlow 41 (by omega)).trans h41) rfl

theorem field_set_reader_count {n : Word} (h : n.toNat < 32) :
    bitField 42 5 (m.set_reader_count n).atomic_word = n.toNat ∧
      SameOutside 42 5 m.atomic_word (m.set_reader_count n).atomic_word :=
  @field_clear_add 64 42 5 m.atomic_word n (by decide) h

theorem fields_set_reader_count {n : Word} (h : n.toNat < 32) :
    (m.set_reader_count n).fields = { m.fields with readers := n.toNat } := by
  obtain ⟨hreaders, hsame⟩ := m.field_set_reader_count h
  exact fields_of_sameOutside m hreaders hsame

private theorem fields_eq_of_below {m' : TwoPLPashaMetadataShared}
    (h : ∀ i < 47, m'.atomic_word.getLsbD i = m.atomic_word.getLsbD i) :
    m'.fields = m.fields := by
  obtain ⟨h38, h39, h40, h41⟩ := bits_of_fields m
  exact fields_of_bits m (fun i hi => h i (by omega)) rfl ((h 38 (by omega)).trans h38)
    ((h 39 (by omega)).trans h39) ((h 40 (by omega)).trans h40) ((h 41 (by omega)).trans h41)
    (bitField_congr fun i hi => h (42 + i) (by omega))

@[simp]
theorem fields_clear_all_scc_bits : m.clear_all_scc_bits.fields = m.fields := by
  apply fields_eq_of_below
  intro i hi
  exact (@field_clear 64 47 16 m.atomic_word (by decide)).2 i (.inl hi)

@[simp]
theorem fields_set_scc_bit (host : Host) : (m.set_scc_bit host).fields = m.fields := by
  apply fields_eq_of_below
  intro i hi
  have hhost := host.isLt
  rw [set_scc_bit, set_bit, SCC_BITS_OFFSET, getLsbD_set_bit _ _ (by omega)]
  have : ¬ i = ↑host + 47 := by omega
  simp [this]

@[simp]
theorem fields_init_scc_metadata (host : Host) : (m.init_scc_metadata host).fields = m.fields := by
  simp [init_scc_metadata]

@[simp]
theorem fields_prepare_read (host : Host) : (m.prepare_read host).fields = m.fields := by
  rw [prepare_read]
  split
  · rfl
  · exact fields_set_scc_bit m host

theorem fields_finish_write {host : Host} {m' : TwoPLPashaMetadataShared}
    (h : m.finish_write host = some m') : m'.fields = m.fields := by
  rw [finish_write] at h
  split at h
  · cases h
    simp
  · cases h

theorem fields_construct {o : Word} (ho : o.toNat < 2 ^ 37) :
    (construct o).fields = ⟨o, false, false, false, false, 0⟩ := by
  have hhigh : ∀ i, 37 ≤ i → o.getLsbD i = false := by
    intro i hi
    rw [← testBit_toNat]
    exact Nat.testBit_lt_two_pow (lt_of_lt_of_le ho (Nat.pow_le_pow_right Nat.two_pos hi))
  have hword : (construct o).atomic_word = o := by simp [construct]
  have hdata : (construct o).fields.scc_data = o := by
    apply eq_of_getLsbD_eq
    intro i _
    rw [← get_scc_data_eq, get_scc_data, hword, getLsbD_and, getLsbD_scc_data_mask]
    by_cases hi : i < 37
    · simp [hi]
    · rw [hhigh i (by omega), Bool.false_and]
  refine fields_of_bits (construct o) (fun _ _ => rfl) hdata.symm ?_ ?_ ?_ ?_ ?_
  · rw [hword]; exact hhigh 38 (by omega)
  · rw [hword]; exact hhigh 39 (by omega)
  · rw [hword]; exact hhigh 40 (by omega)
  · rw [hword]; exact hhigh 41 (by omega)
  · rw [hword, bitField, Nat.div_eq_of_lt (lt_trans ho (by decide)), Nat.zero_mod]

end TwoPLPashaMetadataShared

structure TidFields where
  readers : Nat
  writer : Bool
  version : Word
deriving DecidableEq

def tidFields (value : Word) : TidFields where
  readers := bitField 58 5 value
  writer := is_write_locked value
  version := remove_lock_bit value

section

variable (v : Word)

@[simp]
theorem is_write_locked_eq : is_write_locked v = (tidFields v).writer := rfl

@[simp]
theorem remove_lock_bit_eq : remove_lock_bit v = (tidFields v).version := rfl

theorem is_write_locked_eq_getLsbD : is_write_locked v = v.getLsbD 63 :=
  test_bit_eq_getLsbD 63 (by decide)

theorem toNat_read_lock_num : (read_lock_num v).toNat = (tidFields v).readers :=
  @toNat_shift_mask 64 58 5 v (by decide)

theorem tidFields_readers_lt : (tidFields v).readers < 32 := bitField_lt 58 5 v

@[simp]
theorem read_lock_num_eq_max :
    (read_lock_num v == read_lock_max) = ((tidFields v).readers == 31) := by
  rw [Bool.eq_iff_iff, beq_iff_eq, beq_iff_eq, ← toNat_read_lock_num, ← toNat_inj]
  rfl

private theorem getLsbD_remove_lock_bit (i : Nat) :
    (remove_lock_bit v).getLsbD i = (decide (i < 58) && v.getLsbD i) := by
  have hclear := @field_clear 64 58 6 v (by decide)
  by_cases hi : i < 58
  · simp only [hi, decide_true, Bool.true_and]
    exact hclear.2 i (.inl hi)
  · simp only [hi, decide_false, Bool.false_and]
    by_cases hi' : i < 64
    · -- the bit lies in the cleared field
      have hbit := congrArg (fun n => Nat.testBit n (i - 58)) hclear.1
      simp only [testBit_bitField, Nat.zero_testBit, Nat.add_sub_cancel' (not_lt.mp hi),
        show i - 58 < 6 by omega, decide_true, Bool.true_and] at hbit
      exact hbit
    · exact getLsbD_of_ge _ _ (by omega)

theorem toNat_remove_lock_bit_lt : (remove_lock_bit v).toNat < 2 ^ 58 := by
  refine Nat.lt_pow_two_of_testBit _ fun i hi => ?_
  rw [testBit_toNat, getLsbD_remove_lock_bit]
  simp [show ¬ i < 58 by omega]

private theorem tidFields_of_bits {v' : Word} {n : Nat} {b : Bool}
    (hlow : ∀ i < 58, v'.getLsbD i = v.getLsbD i) (hreaders : bitField 58 5 v' = n)
    (hwriter : v'.getLsbD 63 = b) : tidFields v' = ⟨n, b, (tidFields v).version⟩ := by
  have hversion : remove_lock_bit v' = remove_lock_bit v := by
    apply eq_of_getLsbD_eq
    intro i _
    rw [getLsbD_remove_lock_bit, getLsbD_remove_lock_bit]
    by_cases hi : i < 58
    · rw [hlow i hi]
    · simp [hi]
  simp only [tidFields, is_write_locked_eq_getLsbD, hversion, hreaders, hwriter]

private theorem writer_field : bitField 63 1 v = (tidFields v).writer.toNat := by
  rw [bitField_one, ← is_write_locked_eq_getLsbD, is_write_locked_eq]

private theorem tidFields_of_readers {v' : Word} {n : Nat} (hreaders : bitField 58 5 v' = n)
    (hsame : SameOutside 58 5 v v') : tidFields v' = { tidFields v with readers := n } :=
  tidFields_of_bits v (fun i hi => hsame i (.inl hi)) hreaders
    ((hsame 63 (by omega)).trans (is_write_locked_eq_getLsbD v).symm)

private theorem tidFields_of_writer {v' : Word} {b : Bool} (hwriter : v'.getLsbD 63 = b)
    (hsame : ∀ i < 63, v'.getLsbD i = v.getLsbD i) :
    tidFields v' = { tidFields v with writer := b } :=
  tidFields_of_bits v (fun i hi => hsame i (by omega))
    (bitField_congr fun i hi => hsame (58 + i) (by omega)) hwriter

theorem tidFields_add_reader (h : (tidFields v).readers < 31) :
    tidFields (v + 1#64 <<< READ_LOCK_BIT_OFFSET)
      = { tidFields v with readers := (tidFields v).readers + 1 } := by
  have hadd := @field_add 64 58 5 v 1 (by decide) (show (tidFields v).readers + 1 < 32 by omega)
  exact tidFields_of_readers v hadd.1 hadd.2

theorem tidFields_sub_reader (h : 0 < (tidFields v).readers) :
    tidFields (v - 1#64 <<< READ_LOCK_BIT_OFFSET)
      = { tidFields v with readers := (tidFields v).readers - 1 } := by
  have hsub := @field_sub 64 58 5 v 1 (by decide) h
  exact tidFields_of_readers v hsub.1 hsub.2

theorem version_sub {off : Nat} (hoff : 58 ≤ off) :
    (tidFields (v - 1#64 <<< off)).version = (tidFields v).version := by
  have hlow : ∀ i < 58, (v - 1#64 <<< off).getLsbD i = v.getLsbD i :=
    fun i hi => getLsbD_sub_shiftLeft _ _ (by omega)
  rw [tidFields_of_bits v hlow rfl rfl]

theorem tidFields_set_read_lock_num {n : Word} (h : n.toNat < 32) :
    tidFields (set_read_lock_num v n) = { tidFields v with readers := n.toNat } := by
  obtain ⟨hreaders, hsame⟩ := @field_clear_add 64 58 5 v n (by decide) h
  exact tidFields_of_readers v hreaders hsame

theorem tidFields_add_writer (h : (tidFields v).writer = false) :
    tidFields (v + WRITE_LOCK_BIT_MASK <<< WRITE_LOCK_BIT_OFFSET)
      = { tidFields v with writer := true } := by
  have hfield : bitField 63 1 v = 0 := by rw [writer_field, h]; rfl
  have hadd := @field_add 64 63 1 v 1 (by decide) (by rw [hfield]; decide)
  refine tidFields_of_writer v ?_ fun i hi => hadd.2 i (.inl hi)
  have hbit := congrArg (fun n => Nat.testBit n 0) hadd.1
  rw [testBit_bitField, hfield] at hbit
  simpa using hbit

theorem tidFields_sub_writer (h : (tidFields v).writer = true) :
    tidFields (v - 1#64 <<< WRITE_LOCK_BIT_OFFSET) = { tidFields v with writer := false } := by
  have hfield : bitField 63 1 v = 1 := by rw [writer_field, h]; rfl
  have hsub := @field_sub 64 63 1 v 1 (by decide) (by rw [hfield])
  refine tidFields_of_writer v ?_ fun i hi => hsub.2 i (.inl hi)
  have hbit := congrArg (fun n => Nat.testBit n 0) hsub.1
  rw [testBit_bitField, hfield] at hbit
  simpa using hbit

theorem tidFields_set_write_lock_bit :
    tidFields (set_write_lock_bit v) = { tidFields v with writer := true } := by
  refine tidFields_of_writer v ?_ fun i hi => ?_
  · rw [set_write_lock_bit, WRITE_LOCK_BIT_MASK, WRITE_LOCK_BIT_OFFSET,
      getLsbD_set_bit 63 63 (by decide)]
    simp
  · rw [set_write_lock_bit, WRITE_LOCK_BIT_MASK, WRITE_LOCK_BIT_OFFSET,
      getLsbD_set_bit 63 i (by decide)]
    simp [show ¬ i = 63 by omega]

theorem tidFields_clear_write_lock_bit :
    tidFields (clear_write_lock_bit v) = { tidFields v with writer := false } := by
  refine tidFields_of_writer v ?_ fun i hi => ?_
  · rw [clear_write_lock_bit, WRITE_LOCK_BIT_MASK, WRITE_LOCK_BIT_OFFSET,
      getLsbD_clear_bit 63 63 (by decide)]
    simp
  · rw [clear_write_lock_bit, WRITE_LOCK_BIT_MASK, WRITE_LOCK_BIT_OFFSET,
      getLsbD_clear_bit 63 i (by decide)]
    simp [show ¬ i = 63 by omega]

@[simp]
theorem is_read_locked_eq : is_read_locked v = ((tidFields v).readers != 0) := by
  rw [Bool.eq_iff_iff, is_read_locked, bne_iff_ne, bne_iff_ne, not_iff_not]
  exact @and_field_mask_eq_zero 64 58 5 v (by decide)

end

end Tigon.TwoPLPasha
