import Tigon.TwoPLPasha.RemoteInsert.Rows

namespace Tigon.TwoPLPasha

open Option TwoPLPashaMetadataShared Tigon.Library

namespace TwoPLPashaMetadataShared

-- The edits of the shared word, each of one of its fields.
inductive WordOp
  | lock
  | unlock
  | set_scc_bit (host_id : Host)
  | clear_all_scc_bits
  | set_reader_count (reader_count : Word)
  | increase_reader_count
  | decrease_reader_count
  | set_write_locked
  | clear_write_locked
  | set_is_data_modified_since_moved_in
  | clear_is_data_modified_since_moved_in
  | set_next_key_real_bit
  | clear_next_key_real_bit
  | set_prev_key_real_bit
  | clear_prev_key_real_bit
deriving DecidableEq

def edit (m : TwoPLPashaMetadataShared) : WordOp → Option TwoPLPashaMetadataShared
  | .lock => m.lock
  | .unlock => some m.unlock
  | .set_scc_bit host_id => some (m.set_scc_bit host_id)
  | .clear_all_scc_bits => some m.clear_all_scc_bits
  | .set_reader_count reader_count => some (m.set_reader_count reader_count)
  | .increase_reader_count => some m.increase_reader_count
  | .decrease_reader_count => some m.decrease_reader_count
  | .set_write_locked => some m.set_write_locked
  | .clear_write_locked => some m.clear_write_locked
  | .set_is_data_modified_since_moved_in => some m.set_is_data_modified_since_moved_in
  | .clear_is_data_modified_since_moved_in => some m.clear_is_data_modified_since_moved_in
  | .set_next_key_real_bit => some m.set_next_key_real_bit
  | .clear_next_key_real_bit => some m.clear_next_key_real_bit
  | .set_prev_key_real_bit => some m.set_prev_key_real_bit
  | .clear_prev_key_real_bit => some m.clear_prev_key_real_bit

namespace WordOp

def field : WordOp → Nat × Nat
  | lock | unlock => (63, 1)
  | set_scc_bit _ | clear_all_scc_bits => (47, 16)
  | set_reader_count _ | increase_reader_count | decrease_reader_count => (42, 5)
  | set_write_locked | clear_write_locked => (41, 1)
  | set_is_data_modified_since_moved_in | clear_is_data_modified_since_moved_in => (40, 1)
  | set_next_key_real_bit | clear_next_key_real_bit => (39, 1)
  | set_prev_key_real_bit | clear_prev_key_real_bit => (38, 1)

def value (m : TwoPLPashaMetadataShared) : WordOp → Nat
  | set_scc_bit host_id => bitField 47 16 m.atomic_word ||| 2 ^ host_id.val
  | set_reader_count reader_count => reader_count.toNat
  | increase_reader_count => m.fields.readers + 1
  | decrease_reader_count => m.fields.readers - 1
  | lock | set_write_locked | set_is_data_modified_since_moved_in | set_next_key_real_bit
  | set_prev_key_real_bit => 1
  | unlock | clear_all_scc_bits | clear_write_locked | clear_is_data_modified_since_moved_in
  | clear_next_key_real_bit | clear_prev_key_real_bit => 0

-- There are never more than 31 readers, and only a reader leaves.
def Allowed (m : TwoPLPashaMetadataShared) : WordOp → Prop
  | set_reader_count reader_count => reader_count.toNat ≤ 31
  | increase_reader_count => m.fields.readers < 31
  | decrease_reader_count => 0 < m.fields.readers
  | _ => True

instance (m : TwoPLPashaMetadataShared) (op : WordOp) : Decidable (op.Allowed m) := by
  cases op <;> unfold Allowed <;> infer_instance

def KeepsLock (op : WordOp) : Prop := op.field.1 + op.field.2 ≤ 41 ∨ 47 ≤ op.field.1

instance (op : WordOp) : Decidable op.KeepsLock := inferInstanceAs (Decidable (_ ∨ _))

end WordOp

variable {m m' m₀ : TwoPLPashaMetadataShared} {op : WordOp}

theorem field_set_scc_bit (m : TwoPLPashaMetadataShared) (host_id : Host) :
    bitField 47 16 (m.set_scc_bit host_id).atomic_word
        = (bitField 47 16 m.atomic_word ||| 2 ^ host_id.val) ∧
      SameOutside 47 16 m.atomic_word (m.set_scc_bit host_id).atomic_word := by
  have hhost := host_id.isLt
  have hbit : ∀ i, (m.set_scc_bit host_id).atomic_word.getLsbD i
      = (decide (i = host_id + 47) || m.atomic_word.getLsbD i) :=
    fun i => getLsbD_set_bit _ i (by rw [SCC_BITS_OFFSET]; omega)
  refine ⟨Nat.eq_of_testBit_eq fun i => ?_, fun i hi => ?_⟩
  · rw [Nat.testBit_or, testBit_bitField, testBit_bitField, hbit, Nat.testBit_two_pow]
    by_cases hi : i = host_id.val
    · simp [hi, add_comm]
    · simp [Ne.symm hi, show ¬ 47 + i = host_id + 47 by omega]
  · rw [hbit, decide_eq_false (by omega), Bool.false_or]

theorem edit_field (hallowed : op.Allowed m) (h : m.edit op = some m') :
    bitField op.field.1 op.field.2 m'.atomic_word = op.value m ∧
      SameOutside op.field.1 op.field.2 m.atomic_word m'.atomic_word := by
  cases op with
  | lock =>
    rw [edit, lock] at h
    split at h
    · cases h
      exact field_set_bit (by decide)
    · cases h
  | set_scc_bit host_id =>
    obtain rfl := some.inj h
    exact m.field_set_scc_bit host_id
  | set_reader_count n =>
    obtain rfl := some.inj h
    have hle : n.toNat ≤ 31 := hallowed
    exact m.field_set_reader_count (by omega)
  | increase_reader_count =>
    obtain rfl := some.inj h
    exact m.field_increase_reader_count hallowed
  | decrease_reader_count =>
    obtain rfl := some.inj h
    exact m.field_decrease_reader_count hallowed
  | clear_all_scc_bits =>
    obtain rfl := some.inj h
    exact @field_clear 64 47 16 m.atomic_word (by decide)
  | set_write_locked | set_is_data_modified_since_moved_in | set_next_key_real_bit
  | set_prev_key_real_bit =>
    obtain rfl := some.inj h
    exact field_set_bit (by decide)
  | unlock | clear_write_locked | clear_is_data_modified_since_moved_in | clear_next_key_real_bit
  | clear_prev_key_real_bit =>
    obtain rfl := some.inj h
    exact @field_clear 64 _ 1 m.atomic_word (by decide)

section Frame

variable {off len : Nat} (h : SameOutside off len m.atomic_word m'.atomic_word)

include h

theorem scc_data_of_sameOutside (hoff : 37 ≤ off) : m'.fields.scc_data = m.fields.scc_data :=
  get_scc_data_congr m fun i hi => h i (by omega)

theorem lock_of_sameOutside (hoff : off + len ≤ 41 ∨ 47 ≤ off) :
    m'.fields.readers = m.fields.readers ∧ m'.fields.writer = m.fields.writer := by
  refine ⟨bitField_congr fun i hi => h (42 + i) (by omega), ?_⟩
  change m'.is_bit_set 41 = m.is_bit_set 41
  rw [is_bit_set_eq m' (by decide), is_bit_set_eq m (by decide), h 41 (by omega)]

end Frame

theorem scc_data_of_reach (h : Reach edit (fun m op => op.Allowed m) m₀ m) :
    m.fields.scc_data = m₀.fields.scc_data := by
  refine h.invariant (P := fun m => m.fields.scc_data = m₀.fields.scc_data) rfl ?_
  intro m op m' hm hallowed hedit
  rw [← hm]
  refine scc_data_of_sameOutside (edit_field hallowed hedit).2 ?_
  cases op <;> simp [WordOp.field]

theorem lock_of_reach (h : Reach edit (fun m op => op.Allowed m ∧ op.KeepsLock) m₀ m) :
    m.fields.readers = m₀.fields.readers ∧ m.fields.writer = m₀.fields.writer := by
  refine h.invariant (P := fun m => m.fields.readers = m₀.fields.readers ∧
    m.fields.writer = m₀.fields.writer) ⟨rfl, rfl⟩ ?_
  intro m op m' hm hok hedit
  obtain ⟨hreaders, hwriter⟩ := lock_of_sameOutside (edit_field hok.1 hedit).2 hok.2
  exact ⟨hreaders.trans hm.1, hwriter.trans hm.2⟩

end TwoPLPashaMetadataShared

open TwoPLPashaMetadataShared (WordOp edit)

theorem Table.sameOutside_keyReal (prev_real next_real : Bool) (m : TwoPLPashaMetadataShared) :
    SameOutside 38 2 m.atomic_word (Table.keyReal prev_real next_real m).atomic_word := by
  have hset : ∀ (m : TwoPLPashaMetadataShared) i, i = 38 ∨ i = 39 →
      SameOutside 38 2 m.atomic_word (m.set_bit i).atomic_word :=
    fun m i hi j hj => (@field_set_bit 64 m.atomic_word i (by omega)).2 j (by omega)
  have hclear : ∀ (m : TwoPLPashaMetadataShared) i, i = 38 ∨ i = 39 →
      SameOutside 38 2 m.atomic_word (m.clear_bit i).atomic_word :=
    fun m i hi j hj => (@field_clear 64 i 1 m.atomic_word (by omega)).2 j (by omega)
  rw [Table.keyReal]
  cases next_real <;> cases prev_real
  · exact (hclear m 39 (.inr rfl)).trans (hclear _ 38 (.inl rfl))
  · exact (hclear m 39 (.inr rfl)).trans (hset _ 38 (.inl rfl))
  · exact (hset m 39 (.inr rfl)).trans (hclear _ 38 (.inl rfl))
  · exact (hset m 39 (.inr rfl)).trans (hset _ 38 (.inl rfl))

namespace RowState

variable {α : Type} {r r' r₁ r₂ : RowState α} {ctx : Context} {host : Host} {inc : Bool}
  {alloc : Allocation α} {keyReal : TwoPLPashaMetadataShared → TwoPLPashaMetadataShared}
  {p : Ptr} {o : Word}

-- Only the shared word is edited, field by field; the data, the reference count and what
-- belongs to other rows may be anything.
structure EditsWord (r₁ r₂ : RowState α) : Prop where
  lmeta : r₂.lmeta = r₁.lmeta
  word : Reach edit (fun m op => op.Allowed m) r₁.current r₂.current
  valid : (r₂.scc r₁.current.fields.scc_data).valid = (r₁.scc r₁.current.fields.scc_data).valid
  tid : (r₂.scc r₁.current.fields.scc_data).tid = (r₁.scc r₁.current.fields.scc_data).tid

theorem lmeta_sccForMoveIn (h : r.sccForMoveIn ctx alloc = some (r', o)) :
    r'.lmeta = { r.lmeta with scc_data := some o } := by
  rw [sccForMoveIn] at h
  split at h
  · rename_i hscc _
    cases h
    rw [← hscc]
  · obtain ⟨b, -, hpair⟩ := map_eq_some_iff.mp h
    cases hpair
    rfl

theorem installShared_word (hkey : ∀ m, SameOutside 38 2 m.atomic_word (keyReal m).atomic_word)
    (ho : o.toNat < 2 ^ 37) (h : installShared ctx host inc keyReal r p o = some r₁) :
    r₁.lmeta.is_migrated = true ∧ r₁.current.fields.scc_data = o ∧
      r₁.current.fields.readers = (tidFields r.lmeta.tid).readers ∧
      r₁.current.fields.writer = (tidFields r.lmeta.tid).writer ∧
      r₁.sccOf r₁.lmeta.migrated_row = copyIn ctx r inc (r.scc o) := by
  rw [installShared, finish_write, map_eq_some_iff] at h
  obtain ⟨m, hm, rfl⟩ := h
  have hfields := fields_finish_write _ hm
  simp only [Function.update_self] at hfields
  have hreal := hkey (copyLock r.lmeta.tid ((construct o).init_scc_metadata
    host)).clear_is_data_modified_since_moved_in
  have hdata := scc_data_of_sameOutside hreal (by decide)
  have hlock := lock_of_sameOutside hreal (by decide)
  simp only [fields_clear_is_data_modified_since_moved_in,
    fields_copyLock, fields_init_scc_metadata,
    fields_construct ho] at hdata hlock
  rw [← hfields] at hdata hlock
  refine ⟨rfl, ?_, ?_, ?_, ?_⟩ <;> simp [current, onSmeta, sccOf, hdata, hlock]

theorem moveIn_moveOut_lock
    (hkey : ∀ m, SameOutside 38 2 m.atomic_word (keyReal m).atomic_word)
    (hm : r.lmeta.is_migrated = false) (hp : alloc.smeta = some p)
    (hblock : r.sccForMoveIn ctx alloc = some (r', o)) (ho : o.toNat < 2 ^ 37) :
    ∃ r₁, moveIn ctx host alloc inc keyReal r = some (r₁, .SUCCESS) ∧
      (r₁.current.fields.scc_data = o ∧
        r₁.current.fields.readers = (tidFields r.lmeta.tid).readers ∧
        r₁.current.fields.writer = (tidFields r.lmeta.tid).writer ∧
        (r₁.sccOf r₁.lmeta.migrated_row).valid = r.lmeta.is_valid) ∧
      (∀ m m' (op : WordOp), op.Allowed m → m.edit op = some m' →
        bitField op.field.1 op.field.2 m'.atomic_word = op.value m ∧
        SameOutside op.field.1 op.field.2 m.atomic_word m'.atomic_word) ∧
      ∀ r₂ host', EditsWord r₁ r₂ → (r₂.sccOf r₂.lmeta.migrated_row).ref_cnt = 0#8 →
        r₂.current.fields.scc_data = o ∧
        ∃ r₃, moveOut ctx host' r₂ = (r₃, true) ∧ r₃.lmeta.is_valid = r.lmeta.is_valid ∧
          tidFields r₃.lmeta.tid = ⟨r₂.current.fields.readers, r₂.current.fields.writer,
            (tidFields r.lmeta.tid).version⟩ ∧
          (Reach edit (fun m op => op.Allowed m ∧ op.KeepsLock) r₁.current r₂.current →
            tidFields r₃.lmeta.tid = tidFields r.lmeta.tid) := by
  have hbits : ∀ m, (keyReal m).scc_bit host = m.scc_bit host := by
    intro m
    rw [scc_bit_eq, scc_bit_eq,
      hkey m _ (by omega)]
  obtain ⟨r₁, hinstall⟩ : ∃ r₁, installShared ctx host inc keyReal r' p o = some r₁ :=
    exists_installShared hbits r' p o
  have hlmeta := lmeta_sccForMoveIn hblock
  obtain ⟨hmig, hdata, hreaders, hwriter, hscc⟩ := installShared_word hkey ho hinstall
  have hcopy := copyOf_copyIn ctx r' inc (r'.scc o)
  rw [← hscc] at hcopy
  have hvalid : (r₁.sccOf r₁.lmeta.migrated_row).valid = r.lmeta.is_valid :=
    (congrArg Copy.valid hcopy).trans (by rw [view, hlmeta])
  have hversion : (tidFields (r₁.sccOf r₁.lmeta.migrated_row).tid).version
      = (tidFields r.lmeta.tid).version :=
    (congrArg Copy.version hcopy).trans (by rw [view, hlmeta])
  rw [hlmeta] at hreaders hwriter
  refine ⟨r₁, ?_, ⟨hdata, hreaders, hwriter, hvalid⟩,
    fun m m' op => edit_field, ?_⟩
  · rw [moveIn, if_pos hm]
    simp only [hp, hblock, hinstall, map_some]
  · intro r₂ host' hedits hcount
    have hsame := scc_data_of_reach hedits.word
    have hblocks : ∀ r₀ : RowState α, r₀.sccOf r₀.lmeta.migrated_row
        = r₀.scc r₀.current.fields.scc_data := fun _ => rfl
    have hout : moveOut ctx host' r₂ = (uninstallShared ctx host' r₂, true) := by
      rw [moveOut, if_pos (by rw [hedits.lmeta, hmig]), if_neg (by rw [hcount]; decide)]
    have htid : tidFields (uninstallShared ctx host' r₂).lmeta.tid
        = ⟨r₂.current.fields.readers, r₂.current.fields.writer,
          (tidFields r.lmeta.tid).version⟩ := by
      rw [← hversion, hblocks r₁, ← hedits.tid, ← hsame, ← hblocks r₂]
      simp [uninstallShared, tidFields_copyLockBack, prepare_read, onSmeta, sccOf, current]
    refine ⟨hsame.trans hdata, _, hout, ?_, htid, fun hreach => ?_⟩
    · rw [← hvalid, hblocks r₁, ← hedits.valid, ← hsame, ← hblocks r₂]
      simp [uninstallShared, prepare_read, onSmeta, sccOf]
    · obtain ⟨hreaders', hwriter'⟩ := lock_of_reach hreach
      rw [htid, hreaders', hwriter', hreaders, hwriter]

def threeReaders : RowState Nat where
  lmeta := { tid := 0x0c00000000000007#64, is_valid := true }
  data := 5
  smeta := fun _ => ⟨0⟩
  scc := fun _ => ⟨0, 0, 0, 0⟩
  cxl := none

theorem moveIn_moveOut_lock_three_readers :
    ∃ r₁, moveIn ⟨true, true⟩ 2 ⟨some 1, some (64, ⟨0, 0, 0, 0⟩)⟩ false (Table.keyReal true false)
        threeReaders = some (r₁, .SUCCESS) ∧ r₁.current.fields.readers = 3 := by
  obtain ⟨r₁, hin, ⟨-, hreaders, -⟩, -⟩ := @moveIn_moveOut_lock Nat threeReaders _ ⟨true, true⟩ 2
    false ⟨some 1, some (64, ⟨0, 0, 0, 0⟩)⟩ _ 1 64
    (Table.sameOutside_keyReal true false) rfl rfl rfl
    (by decide)
  exact ⟨r₁, hin, hreaders.trans (by decide)⟩

end RowState

end Tigon.TwoPLPasha
