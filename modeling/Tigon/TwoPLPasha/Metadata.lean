import Tigon.Library.BitField
import Tigon.Library.ReadersWriter

namespace Tigon.TwoPLPasha

open Tigon.Library

abbrev Word := BitVec 64

-- Address of a shared metadata block in CXL memory; 0 is nullptr.
abbrev Ptr := Nat

-- The shared word has one coherence bit for each of 16 hosts.
abbrev Host := Fin 16

instance neZero_hosts : NeZero 16 := ⟨by decide⟩

-- SCC data is addressed by its CXL offset. The migration policy's own bytes are
-- not part of this model.
structure TwoPLPashaSharedDataSCC (α : Type) where
  tid : Word
  flags : BitVec 8
  ref_cnt : BitVec 8
  data : α
deriving DecidableEq

namespace TwoPLPashaSharedDataSCC

variable {α : Type}

@[simp]
def valid_flag_index : Nat := 0

def get_flag (d : TwoPLPashaSharedDataSCC α) (flag_index : Nat) : Bool :=
  (d.flags &&& 1#8 <<< flag_index) != 0#8

def set_flag (d : TwoPLPashaSharedDataSCC α) (flag_index : Nat) : TwoPLPashaSharedDataSCC α :=
  { d with flags := d.flags ||| 1#8 <<< flag_index }

def clear_flag (d : TwoPLPashaSharedDataSCC α) (flag_index : Nat) : TwoPLPashaSharedDataSCC α :=
  { d with flags := d.flags &&& ~~~(1#8 <<< flag_index) }

-- The uint8_t counter wraps around.
def inc_ref_cnt (d : TwoPLPashaSharedDataSCC α) : TwoPLPashaSharedDataSCC α :=
  { d with ref_cnt := d.ref_cnt + 1 }

def dec_ref_cnt (d : TwoPLPashaSharedDataSCC α) : TwoPLPashaSharedDataSCC α :=
  { d with ref_cnt := d.ref_cnt - 1 }

end TwoPLPashaSharedDataSCC

-- The latch is not part of the record: every latched section is one step.
structure TwoPLPashaMetadataLocal where
  tid : Word := 0
  is_valid : Bool := false
  is_migrated : Bool := false
  is_data_modified_since_moved_out : Bool := true
  migrated_row : Ptr := 0
  scc_data : Option Word := none
deriving DecidableEq

def TwoPLPashaMetadataLocalInit (is_tuple_valid : Bool) : TwoPLPashaMetadataLocal :=
  { is_valid := is_tuple_valid }

structure TwoPLPashaMetadataShared where
  atomic_word : Word
deriving DecidableEq

namespace TwoPLPashaMetadataShared

@[simp]
def LATCH_BIT_OFFSET : Nat := 63
@[simp]
def LATCH_BIT_MASK : Word := 0x1#64
@[simp]
def SCC_DATA_OFFSET : Nat := 0
@[simp]
def SCC_DATA_MASK : Word := 0x1fffffffff#64
@[simp]
def SCC_BITS_OFFSET : Nat := 47
@[simp]
def SCC_BITS_MASK : Word := 0xffff#64
@[simp]
def READ_LOCK_BITS_OFFSET : Nat := 42
@[simp]
def READ_LOCK_BITS_MASK : Word := 0x1f#64
@[simp]
def WRITE_LOCK_BIT_OFFSET : Nat := 41
@[simp]
def is_data_modified_since_moved_in_bit_index : Nat := 40
@[simp]
def is_next_key_real_bit_index : Nat := 39
@[simp]
def is_prev_key_real_bit_index : Nat := 38

def construct (scc_data_cxl_offset : Word) : TwoPLPashaMetadataShared :=
  ⟨scc_data_cxl_offset <<< SCC_DATA_OFFSET⟩

-- None: the latch is taken, and the call goes on to retry.
def lock (m : TwoPLPashaMetadataShared) : Option TwoPLPashaMetadataShared :=
  if m.atomic_word &&& LATCH_BIT_MASK <<< LATCH_BIT_OFFSET = 0#64 then
    some ⟨m.atomic_word ||| LATCH_BIT_MASK <<< LATCH_BIT_OFFSET⟩
  else none

def unlock (m : TwoPLPashaMetadataShared) : TwoPLPashaMetadataShared :=
  ⟨m.atomic_word &&& ~~~(LATCH_BIT_MASK <<< LATCH_BIT_OFFSET)⟩

def get_scc_data (m : TwoPLPashaMetadataShared) : Word :=
  m.atomic_word &&& (SCC_DATA_MASK <<< SCC_DATA_OFFSET)

def set_bit (m : TwoPLPashaMetadataShared) (bit_index : Nat) : TwoPLPashaMetadataShared :=
  ⟨m.atomic_word ||| 1#64 <<< bit_index⟩

def clear_bit (m : TwoPLPashaMetadataShared) (bit_index : Nat) : TwoPLPashaMetadataShared :=
  ⟨m.atomic_word &&& ~~~(1#64 <<< bit_index)⟩

def is_bit_set (m : TwoPLPashaMetadataShared) (bit_index : Nat) : Bool :=
  (m.atomic_word &&& 1#64 <<< bit_index) != 0#64

def get_next_key_real_bit (m : TwoPLPashaMetadataShared) : Bool :=
  m.is_bit_set is_next_key_real_bit_index

def set_next_key_real_bit (m : TwoPLPashaMetadataShared) : TwoPLPashaMetadataShared :=
  m.set_bit is_next_key_real_bit_index

def clear_next_key_real_bit (m : TwoPLPashaMetadataShared) : TwoPLPashaMetadataShared :=
  m.clear_bit is_next_key_real_bit_index

def get_prev_key_real_bit (m : TwoPLPashaMetadataShared) : Bool :=
  m.is_bit_set is_prev_key_real_bit_index

def set_prev_key_real_bit (m : TwoPLPashaMetadataShared) : TwoPLPashaMetadataShared :=
  m.set_bit is_prev_key_real_bit_index

def clear_prev_key_real_bit (m : TwoPLPashaMetadataShared) : TwoPLPashaMetadataShared :=
  m.clear_bit is_prev_key_real_bit_index

def get_reader_count (m : TwoPLPashaMetadataShared) : Word :=
  (m.atomic_word >>> READ_LOCK_BITS_OFFSET) &&& READ_LOCK_BITS_MASK

def set_reader_count (m : TwoPLPashaMetadataShared) (reader_count : Word) :
    TwoPLPashaMetadataShared :=
  ⟨(m.atomic_word &&& ~~~(READ_LOCK_BITS_MASK <<< READ_LOCK_BITS_OFFSET))
    + reader_count <<< READ_LOCK_BITS_OFFSET⟩

def increase_reader_count (m : TwoPLPashaMetadataShared) : TwoPLPashaMetadataShared :=
  ⟨m.atomic_word + 1#64 <<< READ_LOCK_BITS_OFFSET⟩

def decrease_reader_count (m : TwoPLPashaMetadataShared) : TwoPLPashaMetadataShared :=
  ⟨m.atomic_word - 1#64 <<< READ_LOCK_BITS_OFFSET⟩

def get_reader_count_max : Word := READ_LOCK_BITS_MASK

def is_write_locked (m : TwoPLPashaMetadataShared) : Bool :=
  m.is_bit_set WRITE_LOCK_BIT_OFFSET

def set_write_locked (m : TwoPLPashaMetadataShared) : TwoPLPashaMetadataShared :=
  m.set_bit WRITE_LOCK_BIT_OFFSET

def clear_write_locked (m : TwoPLPashaMetadataShared) : TwoPLPashaMetadataShared :=
  m.clear_bit WRITE_LOCK_BIT_OFFSET

def is_data_modified_since_moved_in (m : TwoPLPashaMetadataShared) : Bool :=
  m.is_bit_set is_data_modified_since_moved_in_bit_index

def set_is_data_modified_since_moved_in (m : TwoPLPashaMetadataShared) :
    TwoPLPashaMetadataShared :=
  m.set_bit is_data_modified_since_moved_in_bit_index

def clear_is_data_modified_since_moved_in (m : TwoPLPashaMetadataShared) :
    TwoPLPashaMetadataShared :=
  m.clear_bit is_data_modified_since_moved_in_bit_index

def clear_all_scc_bits (m : TwoPLPashaMetadataShared) : TwoPLPashaMetadataShared :=
  ⟨m.atomic_word &&& ~~~(SCC_BITS_MASK <<< SCC_BITS_OFFSET)⟩

def set_scc_bit (m : TwoPLPashaMetadataShared) (host_id : Host) : TwoPLPashaMetadataShared :=
  m.set_bit (host_id + SCC_BITS_OFFSET)

-- The part of the write-through coherence manager that edits the shared word.
def init_scc_metadata (m : TwoPLPashaMetadataShared) (host : Host) : TwoPLPashaMetadataShared :=
  m.clear_all_scc_bits.set_scc_bit host

def prepare_read (m : TwoPLPashaMetadataShared) (host : Host) : TwoPLPashaMetadataShared :=
  if m.is_bit_set (host + SCC_BITS_OFFSET) then m else m.set_bit (host + SCC_BITS_OFFSET)

-- None when the CHECK on the host's own bit stops the process.
def finish_write (m : TwoPLPashaMetadataShared) (host : Host) :
    Option TwoPLPashaMetadataShared :=
  if m.is_bit_set (host + SCC_BITS_OFFSET) then some (m.clear_all_scc_bits.set_scc_bit host)
  else none

end TwoPLPashaMetadataShared

-- The lock bits of the local word: bit 63 the writer, bits 62 to 58 the readers.
@[simp]
def LOCK_BIT_OFFSET : Nat := 58
@[simp]
def LOCK_BIT_MASK : Word := 0x3f#64
@[simp]
def READ_LOCK_BIT_OFFSET : Nat := 58
@[simp]
def READ_LOCK_BIT_MASK : Word := 0x1f#64
@[simp]
def WRITE_LOCK_BIT_OFFSET : Nat := 63
@[simp]
def WRITE_LOCK_BIT_MASK : Word := 0x1#64

def is_read_locked (value : Word) : Bool :=
  (value &&& READ_LOCK_BIT_MASK <<< READ_LOCK_BIT_OFFSET) != 0#64

def is_write_locked (value : Word) : Bool :=
  (value &&& WRITE_LOCK_BIT_MASK <<< WRITE_LOCK_BIT_OFFSET) != 0#64

def read_lock_num (value : Word) : Word :=
  (value >>> READ_LOCK_BIT_OFFSET) &&& READ_LOCK_BIT_MASK

def set_read_lock_num (value reader_count : Word) : Word :=
  (value &&& ~~~(READ_LOCK_BIT_MASK <<< READ_LOCK_BIT_OFFSET))
    + reader_count <<< READ_LOCK_BIT_OFFSET

def read_lock_max : Word := READ_LOCK_BIT_MASK

def set_write_lock_bit (value : Word) : Word :=
  value ||| WRITE_LOCK_BIT_MASK <<< WRITE_LOCK_BIT_OFFSET

def clear_write_lock_bit (value : Word) : Word :=
  value &&& ~~~(WRITE_LOCK_BIT_MASK <<< WRITE_LOCK_BIT_OFFSET)

def remove_lock_bit (value : Word) : Word :=
  value &&& ~~~(LOCK_BIT_MASK <<< LOCK_BIT_OFFSET)

end Tigon.TwoPLPasha
