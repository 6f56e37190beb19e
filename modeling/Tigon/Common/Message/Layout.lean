import Tigon.Common.Message

namespace Tigon.Common

open List Tigon.Library

theorem readWord_wordBytes_append (v : BitVec 64) (rest : List Byte) :
    readWord (wordBytes v ++ rest) = v := by
  have hlt : v.toNat < 256 ^ 8 := v.isLt
  rw [readWord, take_append_of_le_length (by simp [wordBytes]), take_of_length_le
    (by simp [wordBytes]), wordBytes, LittleEndian.ofBytes_toBytes hlt, BitVec.ofNat_toNat,
    BitVec.setWidth_eq]

variable {d : List Byte}

theorem readWord_append (h : 8 ≤ d.length) (rest : List Byte) :
    readWord (d ++ rest) = readWord d := by
  rw [readWord, take_append_of_le_length h, readWord]

theorem readWord_overwrite_zero (d : List Byte) (v : BitVec 64) :
    readWord (overwrite d 0 (wordBytes v)) = v := by
  rw [overwrite, take_zero, nil_append, readWord_wordBytes_append]

variable {bytes : List Byte} {offset : Nat}

theorem readWord_overwrite (hlow : 8 ≤ offset) (hd : 8 ≤ d.length) :
    readWord (overwrite d offset bytes) = readWord d := by
  have hlen : 8 ≤ (d.take offset).length := by
    rw [length_take]
    omega
  rw [overwrite, append_assoc, readWord_append hlen, readWord, readWord, take_take,
    Nat.min_eq_left hlow]

theorem length_overwrite (h : offset + bytes.length ≤ d.length) :
    (overwrite d offset bytes).length = d.length := by
  simp only [overwrite, length_append, length_take, length_drop]
  omega

theorem overwrite_append (h : offset + bytes.length ≤ d.length) (rest : List Byte) :
    overwrite (d ++ rest) offset bytes = overwrite d offset bytes ++ rest := by
  rw [overwrite, overwrite, take_append_of_le_length (by omega),
    drop_append_of_le_length h, append_assoc, append_assoc, append_assoc]

namespace MessagePiece

theorem length_bytes (p : MessagePiece) : p.bytes.length = p.message_length := by
  simp [bytes, wordBytes, message_length, get_header_size]

theorem toNat_header (p : MessagePiece) :
    p.header.toNat = p.message_type * 2 ^ 57 + p.message_length * 2 ^ 35 + p.table_id * 2 ^ 30
      + p.granule_id * 2 ^ 12 + p.partition_id := by
  have hlength : p.message_length < 2 ^ 22 := p.length_lt
  have htype := toNat_ofNat_shiftLeft (w := 64) 57 7 p.type_lt (by omega)
  have hlen := toNat_ofNat_shiftLeft (w := 64) 35 22 hlength (by omega)
  have htable := toNat_ofNat_shiftLeft (w := 64) 30 5 p.table_lt (by omega)
  have hgranule := toNat_ofNat_shiftLeft (w := 64) 12 18 p.granule_lt (by omega)
  have hpartition := toNat_ofNat_shiftLeft (w := 64) 0 12 p.partition_lt (by omega)
  have htype_lt := p.type_lt
  have htable_lt := p.table_lt
  have hgranule_lt := p.granule_lt
  have hpartition_lt := p.partition_lt
  simp only [header, construct_message_piece_header, BitVec.toNat_add, MESSAGE_TYPE_OFFSET,
    MESSAGE_LENGTH_OFFSET, TABLE_ID_OFFSET, GRANULE_ID_OFFSET, PARTITION_ID_OFFSET, htype, hlen,
    htable, hgranule, hpartition]
  omega

theorem get_message_length_header (p : MessagePiece) :
    get_message_length p.header = p.message_length := by
  have hlength : p.message_length < 2 ^ 22 := p.length_lt
  have htable_lt := p.table_lt
  have hgranule_lt := p.granule_lt
  have hpartition_lt := p.partition_lt
  have hfield := @toNat_shift_mask 64 35 22 p.header (by omega)
  rw [bitField, toNat_header] at hfield
  refine hfield.trans ?_
  omega

theorem get_message_length_bytes (p : MessagePiece) (rest : List Byte) :
    get_message_length (readWord (p.bytes ++ rest)) = p.message_length := by
  rw [bytes, append_assoc, readWord_wordBytes_append, get_message_length_header]

end MessagePiece

namespace Message

theorem iterate_flatMap_bytes (ps : List MessagePiece) :
    ∀ {fuel : Nat}, ps.length < fuel →
      iterate fuel (ps.flatMap MessagePiece.bytes) = some (ps.map MessagePiece.bytes) := by
  induction ps with
  | nil =>
    intro fuel hfuel
    obtain ⟨fuel, rfl⟩ := Nat.exists_eq_succ_of_ne_zero (Nat.ne_of_gt hfuel)
    rfl
  | cons p ps ih =>
    intro fuel hfuel
    obtain ⟨fuel, rfl⟩ := Nat.exists_eq_succ_of_ne_zero (Nat.ne_of_gt (by omega : 0 < fuel))
    have hpiece := p.get_message_length_bytes (ps.flatMap MessagePiece.bytes)
    have hlen := p.length_bytes
    have hpos : 8 ≤ p.message_length := Nat.le_add_right _ _
    have hrest : ps.length < fuel := by
      rw [length_cons] at hfuel
      omega
    rw [flatMap_cons, map_cons]
    generalize htail : ps.flatMap MessagePiece.bytes = tail at hpiece ⊢
    have htotal : (p.bytes ++ tail).length = p.message_length + tail.length := by
      rw [length_append, hlen]
    rw [iterate]
    · simp only [hpiece, htotal, if_neg (show ¬ p.message_length + tail.length < 8 by omega),
        if_neg (show p.message_length ≠ 0 by omega),
        if_neg (show ¬ p.message_length + tail.length < p.message_length by omega)]
      rw [← hlen, drop_left, take_left, ← htail, ih hrest]
      rfl
    · intro hnil
      rw [hnil] at htotal
      simp at htotal
      omega

theorem get_message_length_eq (header : BitVec 64) :
    get_message_length header = bitField 1 26 header :=
  @toNat_shift_mask 64 1 26 header (by omega)

-- A message while it is built: its pieces behind the prefix, and their length in the header
-- once they are flushed.
structure Built (ps : List MessagePiece) (flushed : Bool) (m : Message) : Prop where
  layout : ∃ front, front.length = get_prefix_size ∧
    m.data = front ++ ps.flatMap MessagePiece.bytes
  length : flushed = true → m.data.length < 2 ^ 26 →
    get_message_length m.get_header = m.data.length

variable {ps : List MessagePiece} {flushed : Bool} {m : Message}

theorem Built.prefix_le (h : Built ps flushed m) : get_prefix_size ≤ m.data.length := by
  obtain ⟨front, hlen, hdata⟩ := h.layout
  rw [hdata, length_append]
  omega

variable {offset : Nat}

theorem Built.layout_overwrite (h : Built ps flushed m) {bytes : List Byte}
    (hin : offset + bytes.length ≤ get_prefix_size) :
    (∃ front, front.length = get_prefix_size ∧
      overwrite m.data offset bytes = front ++ ps.flatMap MessagePiece.bytes) ∧
    (overwrite m.data offset bytes).length = m.data.length := by
  obtain ⟨front, hlen, hdata⟩ := h.layout
  rw [← hlen] at hin
  refine ⟨⟨overwrite front offset bytes, (length_overwrite hin).trans hlen, ?_⟩, ?_⟩
  · rw [hdata, overwrite_append hin]
  · rw [hdata, overwrite_append hin, length_append, length_overwrite hin,
      length_append]

theorem Built.overwrite (h : Built ps flushed m) {bytes : List Byte} (hlow : 8 ≤ offset)
    (hin : offset + bytes.length ≤ get_prefix_size) :
    Built ps flushed ⟨Common.overwrite m.data offset bytes⟩ := by
  obtain ⟨hlayout, hlen⟩ := h.layout_overwrite hin
  refine ⟨hlayout, ?_⟩
  intro hflushed hfits
  have hword : 8 ≤ m.data.length := le_trans (by simp [get_prefix_size]) h.prefix_le
  simp only [get_header, hlen, readWord_overwrite hlow hword] at hfits ⊢
  exact h.length hflushed hfits

@[simp]
theorem get_header_set_header (m : Message) (header : BitVec 64) :
    (m.set_header header).get_header = header :=
  readWord_overwrite_zero m.data header

theorem Built.length_set_header (h : Built ps flushed m) (header : BitVec 64) :
    (m.set_header header).data.length = m.data.length :=
  (h.layout_overwrite (by simp [wordBytes, get_prefix_size])).2

theorem Built.set_header (h : Built ps flushed m) {header : BitVec 64}
    (hsame : ∀ i < 26, header.getLsbD (1 + i) = m.get_header.getLsbD (1 + i)) :
    Built ps flushed (m.set_header header) := by
  refine ⟨(h.layout_overwrite (by simp [wordBytes, get_prefix_size])).1, ?_⟩
  intro hflushed hfits
  rw [h.length_set_header] at hfits ⊢
  rw [get_header_set_header, get_message_length_eq, bitField_congr hsame, ← get_message_length_eq]
  exact h.length hflushed hfits

theorem Built.setField (h : Built ps flushed m) (mask value : BitVec 64) (hoff : 27 ≤ offset) :
    Built ps flushed (m.setField mask offset value) := by
  apply h.set_header
  intro i hi
  exact getLsbD_set_of_lt mask value (by omega)

theorem Built.set_is_replica (h : Built ps flushed m) (is_replica : Bool) :
    Built ps flushed (m.set_is_replica is_replica) := by
  apply h.set_header
  intro i hi
  have hbit : (BitVec.ofNat 64 is_replica.toNat).getLsbD (1 + i) = false := by
    rw [BitVec.getLsbD_ofNat]
    have hlt : is_replica.toNat < 2 ^ (1 + i) := by
      have hle := Bool.toNat_le is_replica
      have hpow : 2 ≤ 2 ^ (1 + i) := by
        rw [pow_add]
        exact Nat.le_mul_of_pos_right 2 (Nat.two_pow_pos i)
      omega
    simp [Nat.testBit_lt_two_pow hlt]
  have hset := getLsbD_set_of_lt (x := m.get_header) SOURCE_NODE_ID_MASK 0#64
    (show 1 + i < SOURCE_NODE_ID_OFFSET by simp; omega)
  simp only [IS_REPLICA_OFFSET, BitVec.shiftLeft_zero, BitVec.getLsbD_or, hbit]
  simpa using hset

theorem Built.append (h : Built ps flushed m) (p : MessagePiece) :
    Built (ps ++ [p]) false (m.append p) := by
  obtain ⟨front, hlen, hdata⟩ := h.layout
  refine ⟨⟨front, hlen, ?_⟩, by simp⟩
  simp [Message.append, hdata]

theorem Built.flush (h : Built ps flushed m) : Built ps true m.flush := by
  have hcount := h.setField MESSAGE_COUNT_MASK (m.get_message_count + 1)
    (show 27 ≤ MESSAGE_COUNT_OFFSET by simp)
  generalize hm : m.setField MESSAGE_COUNT_MASK MESSAGE_COUNT_OFFSET (m.get_message_count + 1)
    = counted at hcount
  have hflush : m.flush = counted.set_message_length counted.data.length := by
    rw [← hm]
    rfl
  rw [hflush]
  refine ⟨(hcount.layout_overwrite (by simp [wordBytes, get_prefix_size])).1, ?_⟩
  intro _ hfits
  have hlen := hcount.length_set_header
    ((counted.get_header &&& ~~~(MESSAGE_LENGTH_MASK <<< MESSAGE_LENGTH_OFFSET))
      ||| BitVec.ofNat 64 counted.data.length <<< MESSAGE_LENGTH_OFFSET)
  rw [Message.set_message_length, Message.setField] at hfits ⊢
  rw [hlen] at hfits ⊢
  rw [get_header_set_header, get_message_length_eq]
  exact (@field_set 64 1 26 _ _ (by omega) hfits).1

theorem built_new : Built [] false new := by
  refine ⟨⟨new.data, ?_, by simp⟩, by simp⟩
  rfl

theorem Built.append_nil (h : Built ps flushed m) : Built (ps ++ []) flushed m := by
  rwa [List.append_nil]

theorem Built.apply (h : Built ps flushed m) (op : BuildOp) :
    Built (ps ++ op.piece.toList) (op.flushed flushed) (op.apply m) := by
  cases op with
  | append p => exact h.append p
  | flush => exact h.flush.append_nil
  | set_source_node_id id => exact (h.setField SOURCE_NODE_ID_MASK id (by simp)).append_nil
  | set_dest_node_id id => exact (h.setField DEST_NODE_ID_MASK id (by simp)).append_nil
  | set_worker_id id => exact (h.setField WORKER_ID_MASK id (by simp)).append_nil
  | set_is_replica is_replica => exact (h.set_is_replica is_replica).append_nil
  | set_source_cluster_worker_id id =>
    exact (h.overwrite (by omega) (by simp [get_prefix_size])).append_nil
  | set_transaction_id tid =>
    exact (h.overwrite (by omega) (by simp [wordBytes, get_prefix_size])).append_nil
  | set_message_time i t =>
    have hi := i.isLt
    refine (h.overwrite (by omega) ?_).append_nil
    simp only [wordBytes, LittleEndian.length_toBytes, get_prefix_size]
    omega

theorem Built.foldl (h : Built ps flushed m) (ops : List BuildOp) :
    Built (ps ++ ops.filterMap BuildOp.piece) (ops.foldl BuildOp.flushed flushed)
      (ops.foldl BuildOp.apply m) := by
  induction ops generalizing ps flushed m with
  | nil => simpa using h
  | cons op ops ih =>
    have hrest := ih (h.apply op)
    rw [append_assoc] at hrest
    have hpieces : op.piece.toList ++ ops.filterMap BuildOp.piece
        = (op :: ops).filterMap BuildOp.piece := by
      rw [filterMap_cons]
      cases op.piece <;> rfl
    rwa [hpieces] at hrest

theorem built_build (ops : List BuildOp) : Built (piecesOf ops) (isFlushed ops) (build ops) := by
  simpa [piecesOf, isFlushed, build] using built_new.foldl ops

theorem pieces_build (ops : List BuildOp) {fuel : Nat} (hfuel : (piecesOf ops).length < fuel) :
    (build ops).pieces fuel = some ((piecesOf ops).map MessagePiece.bytes) := by
  obtain ⟨front, hlen, hdata⟩ := (built_build ops).layout
  rw [pieces, hdata, ← hlen, drop_left]
  exact iterate_flatMap_bytes _ hfuel

end Message

end Tigon.Common
