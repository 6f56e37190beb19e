import Tigon.Library.BitField
import Tigon.Library.LittleEndian

namespace Tigon.Common

open Tigon.Library LittleEndian

abbrev Byte := BitVec 8

def readWord (d : List Byte) : BitVec 64 := BitVec.ofNat 64 (ofBytes (d.take 8))

def overwrite (d : List Byte) (offset : Nat) (bytes : List Byte) : List Byte :=
  d.take offset ++ bytes ++ d.drop (offset + bytes.length)

def wordBytes (v : BitVec 64) : List Byte := toBytes 8 v.toNat

-- What construct_message_piece_header is called with and the data behind the header. The
-- bounds are its DCHECKs.
structure MessagePiece where
  message_type : Nat
  table_id : Nat
  granule_id : Nat
  partition_id : Nat
  body : List Byte
  type_lt : message_type < 2 ^ 7
  table_lt : table_id < 2 ^ 5
  granule_lt : granule_id < 2 ^ 18
  partition_lt : partition_id < 2 ^ 12
  length_lt : 8 + body.length < 2 ^ 22

namespace MessagePiece

@[simp]
def MESSAGE_TYPE_OFFSET : Nat := 30 + 5 + 20 + 2
@[simp]
def MESSAGE_LENGTH_OFFSET : Nat := 30 + 5
@[simp]
def TABLE_ID_OFFSET : Nat := 30
@[simp]
def GRANULE_ID_OFFSET : Nat := 12
@[simp]
def PARTITION_ID_OFFSET : Nat := 0
@[simp]
def MESSAGE_LENGTH_MASK : BitVec 64 := 0x3fffff

def get_header_size : Nat := 8

def construct_message_piece_header (message_type message_length table_id partition_id
    granule_id : Nat) : BitVec 64 :=
  BitVec.ofNat 64 message_type <<< MESSAGE_TYPE_OFFSET
    + BitVec.ofNat 64 message_length <<< MESSAGE_LENGTH_OFFSET
    + BitVec.ofNat 64 table_id <<< TABLE_ID_OFFSET
    + BitVec.ofNat 64 granule_id <<< GRANULE_ID_OFFSET
    + BitVec.ofNat 64 partition_id <<< PARTITION_ID_OFFSET

def get_message_length (header : BitVec 64) : Nat :=
  ((header >>> MESSAGE_LENGTH_OFFSET) &&& MESSAGE_LENGTH_MASK).toNat

def message_length (p : MessagePiece) : Nat := get_header_size + p.body.length

def header (p : MessagePiece) : BitVec 64 :=
  construct_message_piece_header p.message_type p.message_length p.table_id p.partition_id
    p.granule_id

def bytes (p : MessagePiece) : List Byte := wordBytes p.header ++ p.body

end MessagePiece

structure Message where
  data : List Byte
deriving DecidableEq

namespace Message

@[simp]
def SOURCE_NODE_ID_OFFSET : Nat := 57
@[simp]
def DEST_NODE_ID_OFFSET : Nat := 50
@[simp]
def WORKER_ID_OFFSET : Nat := 42
@[simp]
def MESSAGE_COUNT_OFFSET : Nat := 27
@[simp]
def MESSAGE_LENGTH_OFFSET : Nat := 1
@[simp]
def IS_REPLICA_OFFSET : Nat := 0
@[simp]
def SOURCE_NODE_ID_MASK : BitVec 64 := 0x7f
@[simp]
def DEST_NODE_ID_MASK : BitVec 64 := 0x7f
@[simp]
def WORKER_ID_MASK : BitVec 64 := 0xff
@[simp]
def MESSAGE_COUNT_MASK : BitVec 64 := 0x7fff
@[simp]
def MESSAGE_LENGTH_MASK : BitVec 64 := 0x3ffffff
@[simp]
def IS_REPLICA_MASK : BitVec 64 := 0x1

def DEADBEEF : BitVec 32 := 0xDEADBEEF

-- Header, deadbeef, worker of the source, transaction id and four times.
def get_prefix_size : Nat := 8 + 4 + 4 + 8 + 8 * 4

def get_header (m : Message) : BitVec 64 := readWord m.data

def set_header (m : Message) (header : BitVec 64) : Message :=
  ⟨overwrite m.data 0 (wordBytes header)⟩

-- clear_… of a field of the header followed by the |= of its setter.
def setField (m : Message) (mask : BitVec 64) (offset : Nat) (value : BitVec 64) : Message :=
  m.set_header ((m.get_header &&& ~~~(mask <<< offset)) ||| value <<< offset)

def get_message_length (header : BitVec 64) : Nat :=
  ((header >>> MESSAGE_LENGTH_OFFSET) &&& MESSAGE_LENGTH_MASK).toNat

def get_message_count (m : Message) : BitVec 64 :=
  (m.get_header >>> MESSAGE_COUNT_OFFSET) &&& MESSAGE_COUNT_MASK

def get_source_node_id (m : Message) : BitVec 64 :=
  (m.get_header >>> SOURCE_NODE_ID_OFFSET) &&& SOURCE_NODE_ID_MASK

def get_dest_node_id (m : Message) : BitVec 64 :=
  (m.get_header >>> DEST_NODE_ID_OFFSET) &&& DEST_NODE_ID_MASK

def get_worker_id (m : Message) : BitVec 64 :=
  (m.get_header >>> WORKER_ID_OFFSET) &&& WORKER_ID_MASK

def get_is_replica (m : Message) : BitVec 64 :=
  (m.get_header >>> IS_REPLICA_OFFSET) &&& IS_REPLICA_MASK

def set_message_length (m : Message) (message_length : Nat) : Message :=
  m.setField MESSAGE_LENGTH_MASK MESSAGE_LENGTH_OFFSET (BitVec.ofNat 64 message_length)

def set_message_count (m : Message) (message_count : BitVec 64) : Message :=
  m.setField MESSAGE_COUNT_MASK MESSAGE_COUNT_OFFSET message_count

def set_source_node_id (m : Message) (source_node_id : BitVec 64) : Message :=
  m.setField SOURCE_NODE_ID_MASK SOURCE_NODE_ID_OFFSET source_node_id

def set_dest_node_id (m : Message) (dest_node_id : BitVec 64) : Message :=
  m.setField DEST_NODE_ID_MASK DEST_NODE_ID_OFFSET dest_node_id

def set_worker_id (m : Message) (worker_id : BitVec 64) : Message :=
  m.setField WORKER_ID_MASK WORKER_ID_OFFSET worker_id

-- It clears the source node, not its own bit.
def set_is_replica (m : Message) (is_replica : Bool) : Message :=
  m.set_header ((m.get_header &&& ~~~(SOURCE_NODE_ID_MASK <<< SOURCE_NODE_ID_OFFSET))
    ||| BitVec.ofNat 64 is_replica.toNat <<< IS_REPLICA_OFFSET)

def set_source_cluster_worker_id (m : Message) (id : BitVec 32) : Message :=
  ⟨overwrite m.data 12 (toBytes 4 id.toNat)⟩

def set_transaction_id (m : Message) (tid : BitVec 64) : Message :=
  ⟨overwrite m.data 16 (wordBytes tid)⟩

def set_message_time (m : Message) (i : Fin 4) (t : BitVec 64) : Message :=
  ⟨overwrite m.data (24 + 8 * i.val) (wordBytes t)⟩

def new : Message :=
  let m : Message := ⟨List.replicate get_prefix_size 0⟩
  let m := m.set_message_length m.data.length
  ⟨overwrite m.data 8 (toBytes 4 DEADBEEF.toNat)⟩

def append (m : Message) (p : MessagePiece) : Message := ⟨m.data ++ p.bytes⟩

def flush (m : Message) : Message :=
  let m := m.set_message_count (m.get_message_count + 1)
  m.set_message_length m.data.length

def clear_message_pieces (m : Message) : Message :=
  let m : Message :=
    ⟨m.data.take get_prefix_size ++ List.replicate (get_prefix_size - m.data.length) 0⟩
  let m := (m.set_message_length m.data.length).set_message_count 0
  ⟨overwrite m.data 8 (toBytes 4 DEADBEEF.toNat)⟩

-- The loop from begin() to end(), from the bytes of the iterator's position on. It ends at
-- a piece that is equal to the empty one of end(); none is a read behind the message or an
-- endless loop.
def iterate : Nat → List Byte → Option (List (List Byte))
  | 0, _ => none
  | _ + 1, [] => some []
  | fuel + 1, rest =>
    let length := MessagePiece.get_message_length (readWord rest)
    if rest.length < 8 then none
    else if length = 0 then some []
    else if rest.length < length then none
    else (iterate fuel (rest.drop length)).map (rest.take length :: ·)

def pieces (fuel : Nat) (m : Message) : Option (List (List Byte)) :=
  iterate fuel (m.data.drop get_prefix_size)

end Message

inductive BuildOp
  | append (p : MessagePiece)
  | flush
  | set_source_node_id (id : BitVec 64)
  | set_dest_node_id (id : BitVec 64)
  | set_worker_id (id : BitVec 64)
  | set_is_replica (is_replica : Bool)
  | set_source_cluster_worker_id (id : BitVec 32)
  | set_transaction_id (tid : BitVec 64)
  | set_message_time (i : Fin 4) (t : BitVec 64)

namespace BuildOp

def apply (m : Message) : BuildOp → Message
  | append p => m.append p
  | flush => m.flush
  | set_source_node_id id => m.set_source_node_id id
  | set_dest_node_id id => m.set_dest_node_id id
  | set_worker_id id => m.set_worker_id id
  | set_is_replica is_replica => m.set_is_replica is_replica
  | set_source_cluster_worker_id id => m.set_source_cluster_worker_id id
  | set_transaction_id tid => m.set_transaction_id tid
  | set_message_time i t => m.set_message_time i t

def piece : BuildOp → Option MessagePiece
  | append p => some p
  | _ => none

def flushed (before : Bool) : BuildOp → Bool
  | append _ => false
  | flush => true
  | _ => before

end BuildOp

namespace Message

def build (ops : List BuildOp) : Message := ops.foldl BuildOp.apply new

def piecesOf (ops : List BuildOp) : List MessagePiece := ops.filterMap BuildOp.piece

def isFlushed (ops : List BuildOp) : Bool := ops.foldl BuildOp.flushed false

end Message

end Tigon.Common
