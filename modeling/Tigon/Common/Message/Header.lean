import Tigon.Common.Message.Layout
import Tigon.Library.Transition

namespace Tigon.Common.Message

open Function List Tigon.Library

inductive Field
  | source_node_id
  | dest_node_id
  | worker_id
  | message_count
  | message_length
  | is_replica
deriving DecidableEq

namespace Field

def offset : Field → Nat
  | source_node_id => SOURCE_NODE_ID_OFFSET
  | dest_node_id => DEST_NODE_ID_OFFSET
  | worker_id => WORKER_ID_OFFSET
  | message_count => MESSAGE_COUNT_OFFSET
  | message_length => MESSAGE_LENGTH_OFFSET
  | is_replica => IS_REPLICA_OFFSET

def size : Field → Nat
  | source_node_id | dest_node_id => 7
  | worker_id => 8
  | message_count => 15
  | message_length => 26
  | is_replica => 1

def get (m : Message) : Field → Nat
  | source_node_id => m.get_source_node_id.toNat
  | dest_node_id => m.get_dest_node_id.toNat
  | worker_id => m.get_worker_id.toNat
  | message_count => m.get_message_count.toNat
  | message_length => get_message_length m.get_header
  | is_replica => m.get_is_replica.toNat

theorem get_eq (m : Message) (f : Field) : f.get m = bitField f.offset f.size m.get_header := by
  have hfield := @toNat_shift_mask 64 f.offset f.size m.get_header (by cases f <;> decide)
  cases f <;> exact hfield

theorem apart {f g : Field} (h : g ≠ f) :
    g.offset + g.size ≤ f.offset ∨ f.offset + f.size ≤ g.offset := by
  cases f <;> cases g <;> first | exact absurd rfl h | decide

end Field

inductive HeaderCall
  | build (op : BuildOp)
  | clear_message_pieces

namespace HeaderCall

def apply (m : Message) : HeaderCall → Message
  | build op => op.apply m
  | clear_message_pieces => m.clear_message_pieces

-- What the fields hold after a call that finds `h` in them.
def stores (m : Message) (h : Field → Nat) : HeaderCall → Field → Nat
  | build (.set_source_node_id id) => update h .source_node_id id.toNat
  | build (.set_dest_node_id id) => update h .dest_node_id id.toNat
  | build (.set_worker_id id) => update h .worker_id id.toNat
  | build (.set_is_replica is_replica) => update h .is_replica is_replica.toNat
  | build .flush =>
    update (update h .message_count (m.get_message_count + 1).toNat) .message_length m.data.length
  | build _ => h
  | clear_message_pieces => update (update h .message_length get_prefix_size) .message_count 0

-- The DCHECKs of the setters.
def admitted (m : Message) : HeaderCall → Bool
  | build (.set_source_node_id id) | build (.set_dest_node_id id) => id.toNat < 2 ^ 7
  | build (.set_worker_id id) => id.toNat < 2 ^ 8
  | build .flush => (m.get_message_count + 1).toNat < 2 ^ 15 ∧ m.data.length < 2 ^ 27
  | _ => true

-- set_is_replica finds nothing to clear, and the length has the 26 bits of its mask.
def apart (m : Message) : HeaderCall → Bool
  | build (.set_is_replica is_replica) =>
    m.get_source_node_id = 0 ∧ (m.get_is_replica = 0 ∨ is_replica)
  | build .flush => m.data.length < 2 ^ 26
  | _ => true

end HeaderCall

def call (s : Message × (Field → Nat)) (c : HeaderCall) : Option (Message × (Field → Nat)) :=
  some (c.apply s.1, c.stores s.1 s.2)

def Stored : Field → Nat := update (fun _ => 0) .message_length get_prefix_size

def Shows (header : BitVec 64) (h : Field → Nat) : Prop :=
  ∀ f : Field, bitField f.offset f.size header = h f

theorem Shows.update_field {x y : BitVec 64} {h : Field → Nat} {f : Field} {v : Nat}
    (hx : Shows x h) (hv : bitField f.offset f.size y = v)
    (hsame : SameOutside f.offset f.size x y) : Shows y (update h f v) := by
  intro g
  by_cases hg : g = f
  · rw [hg, update_self, hv]
  · rw [update_of_ne hg, hsame.bitField_eq (Field.apart hg), hx]

structure Holds (m : Message) (h : Field → Nat) : Prop where
  prefix_le : get_prefix_size ≤ m.data.length
  fields : Shows m.get_header h

namespace Holds

variable {m : Message} {h h' : Field → Nat} (hm : Holds m h)

include hm

theorem length_set_header (header : BitVec 64) :
    (m.set_header header).data.length = m.data.length :=
  length_overwrite (le_trans (by simp [wordBytes, get_prefix_size]) hm.prefix_le)

theorem set_header {header : BitVec 64} (hfields : Shows header h') :
    Holds (m.set_header header) h' := by
  refine ⟨hm.prefix_le.trans (hm.length_set_header header).ge, ?_⟩
  rwa [get_header_set_header]

theorem setField (f : Field) (value : BitVec 64) (hvalue : value.toNat < 2 ^ f.size) :
    Holds (m.setField (BitVec.ofNat 64 (2 ^ f.size - 1)) f.offset value)
      (update h f value.toNat) := by
  have hset := @field_set 64 f.offset f.size m.get_header value.toNat (by cases f <;> decide) hvalue
  rw [BitVec.ofNat_toNat, BitVec.setWidth_eq] at hset
  exact hm.set_header (hm.fields.update_field hset.1 hset.2)

theorem set_message_length {n : Nat} (hn : n < 2 ^ 26) :
    Holds (m.set_message_length n) (update h .message_length n) := by
  have hto : (BitVec.ofNat 64 n).toNat = n := by
    rw [BitVec.toNat_ofNat]
    omega
  have hset := hm.setField .message_length (BitVec.ofNat 64 n) (by rw [hto]; exact hn)
  rwa [hto] at hset

theorem set_is_replica {is_replica : Bool}
    (hsource : m.get_source_node_id = 0) (hreplica : m.get_is_replica = 0 ∨ is_replica = true) :
    Holds (m.set_is_replica is_replica) (update h .is_replica is_replica.toNat) := by
  apply hm.set_header
  -- clearing a source node of 0 changes no field
  have hcleared :
      Shows (m.get_header &&& ~~~(SOURCE_NODE_ID_MASK <<< SOURCE_NODE_ID_OFFSET)) h := by
    have hclear := @field_clear 64 57 7 m.get_header (by decide)
    have hzero : h .source_node_id = 0 := by
      rw [← hm.fields, ← Field.get_eq, Field.get, hsource]
      rfl
    have hshows := hm.fields.update_field (f := .source_node_id) hclear.1 hclear.2
    rwa [← hzero, update_eq_self] at hshows
  cases is_replica with
  | true =>
    have hset := @field_set_bit 64
      (m.get_header &&& ~~~(SOURCE_NODE_ID_MASK <<< SOURCE_NODE_ID_OFFSET)) 0 (by decide)
    exact hcleared.update_field (f := .is_replica) hset.1 hset.2
  | false =>
    have hzero : h .is_replica = 0 := by
      rw [← hm.fields, ← Field.get_eq, Field.get, hreplica.resolve_right Bool.false_ne_true]
      rfl
    have hsame : update h .is_replica false.toNat = h := by
      rw [Bool.toNat_false, ← hzero, update_eq_self]
    rw [hsame]
    simpa using hcleared

theorem overwrite {offset : Nat} {bytes : List Byte} (hlow : 8 ≤ offset)
    (hin : offset + bytes.length ≤ get_prefix_size) :
    Holds ⟨Common.overwrite m.data offset bytes⟩ h := by
  have hle := hm.prefix_le
  have hword : 8 ≤ m.data.length := le_trans (by simp [get_prefix_size]) hle
  refine ⟨hle.trans (length_overwrite (hin.trans hle)).ge, ?_⟩
  rw [get_header, readWord_overwrite hlow hword]
  exact hm.fields

theorem flush (hcount : (m.get_message_count + 1).toNat < 2 ^ 15) (hlen : m.data.length < 2 ^ 26) :
    Holds m.flush (update (update h .message_count (m.get_message_count + 1).toNat)
      .message_length m.data.length) := by
  have hcounted := hm.setField .message_count _ hcount
  have hsame : (m.set_message_count (m.get_message_count + 1)).data.length = m.data.length :=
    hm.length_set_header _
  rw [← hsame] at hlen ⊢
  exact hcounted.set_message_length hlen

theorem clear_message_pieces :
    Holds m.clear_message_pieces
      (update (update h .message_length get_prefix_size) .message_count 0) := by
  have hle := hm.prefix_le
  have hword : 8 ≤ (m.data.take get_prefix_size).length := by
    rw [length_take, Nat.min_eq_left hle]
    decide
  have hcut : Holds ⟨m.data.take get_prefix_size⟩ h := by
    refine ⟨(length_take_of_le hle).ge, ?_⟩
    have hheader := readWord_append hword (m.data.drop get_prefix_size)
    rw [take_append_drop] at hheader
    rw [get_header, ← hheader]
    exact hm.fields
  have hsize : (m.data.take get_prefix_size ++
      List.replicate (get_prefix_size - m.data.length) 0) = m.data.take get_prefix_size := by
    rw [Nat.sub_eq_zero_of_le hle, replicate_zero, append_nil]
  have hlength := hcut.set_message_length (n := get_prefix_size) (by decide)
  rw [Message.clear_message_pieces, hsize, length_take_of_le hle]
  exact (hlength.setField .message_count 0 (by decide)).overwrite (by decide) (by decide)

theorem apply (c : HeaderCall) (hadmitted : c.admitted m) (hapart : c.apart m) :
    Holds (c.apply m) (c.stores m h) := by
  cases c with
  | clear_message_pieces => exact hm.clear_message_pieces
  | build op =>
    cases op with
    | append p =>
      have hword : 8 ≤ m.data.length := le_trans (by simp [get_prefix_size]) hm.prefix_le
      refine ⟨hm.prefix_le.trans (by simp [HeaderCall.apply, BuildOp.apply, Message.append]), ?_⟩
      rw [HeaderCall.apply, BuildOp.apply, Message.append, get_header, readWord_append hword]
      exact hm.fields
    | flush => exact hm.flush (of_decide_eq_true hadmitted).1 (of_decide_eq_true hapart)
    | set_source_node_id id => exact hm.setField .source_node_id id (of_decide_eq_true hadmitted)
    | set_dest_node_id id => exact hm.setField .dest_node_id id (of_decide_eq_true hadmitted)
    | set_worker_id id => exact hm.setField .worker_id id (of_decide_eq_true hadmitted)
    | set_is_replica is_replica =>
      obtain ⟨hsource, hreplica⟩ := of_decide_eq_true hapart
      exact hm.set_is_replica hsource hreplica
    | set_source_cluster_worker_id id =>
      exact hm.overwrite (by decide) (by simp [get_prefix_size])
    | set_transaction_id tid =>
      exact hm.overwrite (by decide) (by simp [wordBytes, get_prefix_size])
    | set_message_time i t =>
      have hi := i.isLt
      refine hm.overwrite (by omega) ?_
      simp only [wordBytes, LittleEndian.length_toBytes, get_prefix_size]
      omega

end Holds

theorem holds_new : Holds new Stored := by
  refine ⟨by decide, fun f => ?_⟩
  cases f <;> decide +kernel

theorem getters_return_stored {m : Message} {h : Field → Nat}
    (hreach : Reach call (fun s c => c.admitted s.1 ∧ c.apart s.1) (new, Stored) (m, h)) :
    m.get_source_node_id.toNat = h .source_node_id ∧ m.get_dest_node_id.toNat = h .dest_node_id ∧
      m.get_worker_id.toNat = h .worker_id ∧ m.get_message_count.toNat = h .message_count ∧
      get_message_length m.get_header = h .message_length ∧
      m.get_is_replica.toNat = h .is_replica := by
  have hm : Holds m h := by
    refine hreach.invariant (P := fun s => Holds s.1 s.2) holds_new ?_
    intro s c s' hs hok hstep
    obtain rfl := Option.some.inj hstep
    exact hs.apply c hok.1 hok.2
  have hget : ∀ f : Field, f.get m = h f := fun f => (f.get_eq m).trans (hm.fields f)
  exact ⟨hget .source_node_id, hget .dest_node_id, hget .worker_id, hget .message_count,
    hget .message_length, hget .is_replica⟩

theorem getters_return_stored_of_replica :
    ∃ s, Reach call (fun s c => c.admitted s.1 ∧ c.apart s.1) (new, Stored) s ∧
      s.1.get_source_node_id.toNat = 3 := by
  obtain ⟨s, hreach, hstored⟩ := exists_reach_of_run call
    (fun s c => c.admitted s.1 ∧ c.apart s.1) (new, Stored)
    [.build (.set_is_replica true), .build (.set_source_node_id 3), .build .flush]
    (fun s => s.2 .source_node_id = 3) (by decide +kernel)
  exact ⟨s, hreach, (getters_return_stored hreach).1.trans hstored⟩

theorem set_is_replica_clears_source_node_id :
    ∃ s, Reach call (fun s c => c.admitted s.1) (new, Stored) s ∧
      s.2 .source_node_id = 3 ∧ s.1.get_source_node_id.toNat = 0 :=
  exists_reach_of_run _ _ _
    [.build (.set_source_node_id 3), .build (.set_is_replica true)] _ (by decide +kernel)

end Tigon.Common.Message
