import Tigon.TwoPLPasha.Metadata

namespace Tigon.TwoPLPasha

open Tigon.Library

structure Context where
  enable_scc : Bool
  enable_migration_optimization : Bool
deriving DecidableEq

-- One logical row: the owner's local row, the shared blocks that were ever
-- allocated for it, and its entry in the CXL index. Retired blocks stay readable,
-- so a stale pointer still finds the word it was taken for.
structure RowState (α : Type) where
  lmeta : TwoPLPashaMetadataLocal
  data : α
  smeta : Ptr → TwoPLPashaMetadataShared
  scc : Word → TwoPLPashaSharedDataSCC α
  cxl : Option Ptr

structure LockResult (α : Type) where
  row : RowState α
  success : Bool
  tid : Word
  dest : Option α

def lockUnavailable (kind : LockKind) (old_value : Word) : Bool :=
  match kind with
  | .read => is_write_locked old_value || read_lock_num old_value == read_lock_max
  | .write => is_read_locked old_value || is_write_locked old_value

def lockAcquire (kind : LockKind) (old_value : Word) : Word :=
  match kind with
  | .read => old_value + 1#64 <<< READ_LOCK_BIT_OFFSET
  | .write => old_value + WRITE_LOCK_BIT_MASK <<< WRITE_LOCK_BIT_OFFSET

def sharedUnavailable (kind : LockKind) (smeta : TwoPLPashaMetadataShared) : Bool :=
  match kind with
  | .read => smeta.is_write_locked
      || smeta.get_reader_count == TwoPLPashaMetadataShared.get_reader_count_max
  | .write => decide (smeta.get_reader_count > 0) || smeta.is_write_locked

def sharedAcquire (kind : LockKind) (smeta : TwoPLPashaMetadataShared) :
    TwoPLPashaMetadataShared :=
  match kind with
  | .read => smeta.increase_reader_count
  | .write => smeta.set_write_locked

namespace RowState

open TwoPLPashaSharedDataSCC (valid_flag_index)

variable {α : Type}

-- The row an insert or the loader puts into the local index; the shared memory
-- is whatever it was before.
def init (smeta : Ptr → TwoPLPashaMetadataShared) (scc : Word → TwoPLPashaSharedDataSCC α)
    (value : α) (is_tuple_valid : Bool) : RowState α :=
  ⟨TwoPLPashaMetadataLocalInit is_tuple_valid, value, smeta, scc, none⟩

def onSmeta (r : RowState α) (row : Ptr)
    (f : TwoPLPashaMetadataShared → TwoPLPashaMetadataShared) : RowState α :=
  { r with smeta := Function.update r.smeta row (f (r.smeta row)) }

def sccOf (r : RowState α) (row : Ptr) : TwoPLPashaSharedDataSCC α :=
  r.scc (r.smeta row).get_scc_data

def onScc (r : RowState α) (row : Ptr)
    (f : TwoPLPashaSharedDataSCC α → TwoPLPashaSharedDataSCC α) : RowState α :=
  { r with scc := Function.update r.scc (r.smeta row).get_scc_data (f (r.sccOf row)) }

def prepare_read (r : RowState α) (host : Host) (row : Ptr) : RowState α :=
  r.onSmeta row fun m => m.prepare_read host

def finish_write (r : RowState α) (host : Host) (row : Ptr) : Option (RowState α) :=
  ((r.smeta row).finish_write host).map fun m => r.onSmeta row fun _ => m

def remote_update (r : RowState α) (row : Ptr) (value : α) : RowState α :=
  (r.onScc row fun d => { d with data := value }).onSmeta row
    fun m => m.set_is_data_modified_since_moved_in

def update (r : RowState α) (value : α) : RowState α :=
  if r.lmeta.is_migrated = false then
    { r with
      data := value
      lmeta := { r.lmeta with is_data_modified_since_moved_out := true } }
  else
    r.remote_update r.lmeta.migrated_row value

def adoptShared (r : RowState α) (row : Ptr) : RowState α :=
  let d := r.sccOf row
  let lmeta := { r.lmeta with is_valid := d.get_flag valid_flag_index, tid := d.tid }
  { r with lmeta := lmeta, data := d.data }.onSmeta row
    fun m => m.clear_is_data_modified_since_moved_in

-- The owner's access to a migrated row before it looks at the lock bits: the local
-- copy is brought up to date if the shared one was modified. None: the row is invalid.
def refresh (r : RowState α) (host : Host) : RowState α × Option Word :=
  let row := r.lmeta.migrated_row
  let r := r.prepare_read host row
  if (r.smeta row).is_data_modified_since_moved_in then
    if (r.sccOf row).get_flag valid_flag_index = false then
      (r, none)
    else
      (r.adoptShared row, some (remove_lock_bit (r.sccOf row).tid))
  else if r.lmeta.is_valid = false then
    (r, none)
  else
    (r, some (remove_lock_bit r.lmeta.tid))

def lockLocal (kind : LockKind) (r : RowState α) : Option (RowState α) :=
  if lockUnavailable kind r.lmeta.tid then none
  else some { r with lmeta := { r.lmeta with tid := lockAcquire kind r.lmeta.tid } }

def lockShared (kind : LockKind) (r : RowState α) (row : Ptr) : Option (RowState α) :=
  if sharedUnavailable kind (r.smeta row) then none
  else some (r.onSmeta row (sharedAcquire kind))

-- What a lock call on a valid row returns: `copy` is set for those that also read.
def answer (copy : Bool) (r : RowState α) (tid : Word) (src : α) :
    Option (RowState α) → LockResult α
  | none => ⟨r, false, tid, none⟩
  | some r' => ⟨r', true, tid, if copy then some src else none⟩

def localLock (kind : LockKind) (copy : Bool) (r : RowState α) (host : Host) : LockResult α :=
  if r.lmeta.is_migrated = false then
    if r.lmeta.is_valid = false then
      ⟨r, false, 0, none⟩
    else
      answer copy r (remove_lock_bit r.lmeta.tid) r.data (r.lockLocal kind)
  else
    match r.refresh host with
    | (r, none) => ⟨r, false, 0, none⟩
    | (r, some tid) => answer copy r tid r.data (r.lockShared kind r.lmeta.migrated_row)

def read_lock (r : RowState α) (host : Host) : LockResult α := localLock .read false r host

def take_read_lock_and_read (r : RowState α) (host : Host) : LockResult α :=
  localLock .read true r host

def write_lock (r : RowState α) (host : Host) : LockResult α := localLock .write false r host

def take_write_lock_and_read (r : RowState α) (host : Host) : LockResult α :=
  localLock .write true r host

def remoteLock (kind : LockKind) (copy inc_ref_cnt : Bool) (r : RowState α) (host : Host)
    (row : Ptr) : LockResult α :=
  let r := r.prepare_read host row
  let d := r.sccOf row
  if d.get_flag valid_flag_index = false then
    ⟨r, false, remove_lock_bit 0, none⟩
  else
    answer copy r (remove_lock_bit d.tid) d.data ((r.lockShared kind row).map fun r =>
      if inc_ref_cnt then r.onScc row fun d => d.inc_ref_cnt else r)

def remote_take_read_lock_and_read (r : RowState α) (host : Host) (row : Ptr)
    (inc_ref_cnt : Bool) : LockResult α :=
  remoteLock .read true inc_ref_cnt r host row

def remote_read_lock_and_inc_ref_cnt (r : RowState α) (host : Host) (row : Ptr) :
    LockResult α :=
  remoteLock .read false true r host row

def remote_take_write_lock_and_read (r : RowState α) (host : Host) (row : Ptr)
    (inc_ref_cnt : Bool) : LockResult α :=
  remoteLock .write true inc_ref_cnt r host row

def remote_write_lock_and_inc_ref_cnt (r : RowState α) (host : Host) (row : Ptr) :
    LockResult α :=
  remoteLock .write false true r host row

def remote_read_lock_release (r : RowState α) (row : Ptr) : RowState α :=
  r.onSmeta row fun m => m.decrease_reader_count

def read_lock_release (r : RowState α) : RowState α :=
  if r.lmeta.is_migrated = false then
    { r with lmeta := { r.lmeta with tid := r.lmeta.tid - 1#64 <<< READ_LOCK_BIT_OFFSET } }
  else
    r.remote_read_lock_release r.lmeta.migrated_row

def remote_write_lock_release (r : RowState α) (row : Ptr) : RowState α :=
  r.onSmeta row fun m => m.clear_write_locked

def write_lock_release (r : RowState α) : RowState α :=
  if r.lmeta.is_migrated = false then
    { r with lmeta := { r.lmeta with tid := r.lmeta.tid - 1#64 <<< WRITE_LOCK_BIT_OFFSET } }
  else
    r.remote_write_lock_release r.lmeta.migrated_row

def lockRelease (kind : LockKind) (r : RowState α) : RowState α :=
  match kind with
  | .read => r.read_lock_release
  | .write => r.write_lock_release

def remoteLockRelease (kind : LockKind) (r : RowState α) (row : Ptr) : RowState α :=
  match kind with
  | .read => r.remote_read_lock_release row
  | .write => r.remote_write_lock_release row

def remote_write_lock_release_version (r : RowState α) (host : Host) (row : Ptr)
    (new_value : Word) : Option (RowState α) :=
  ((r.onSmeta row fun m => m.clear_write_locked).onScc row
    fun d => { d with tid := new_value }).finish_write host row

def write_lock_release_version (r : RowState α) (host : Host) (new_value : Word) :
    Option (RowState α) :=
  if r.lmeta.is_migrated = false then
    some { r with lmeta := { r.lmeta with tid := new_value } }
  else
    r.remote_write_lock_release_version host r.lmeta.migrated_row new_value

def remote_modify_tuple_valid_bit (r : RowState α) (host : Host) (row : Ptr)
    (is_valid is_insert : Bool) : Option (RowState α) :=
  let r := r.onScc row fun d =>
    if is_valid then d.set_flag valid_flag_index else d.clear_flag valid_flag_index
  if is_insert then (r.prepare_read host row).finish_write host row else some r

def modify_tuple_valid_bit (r : RowState α) (host : Host) (is_valid is_insert : Bool) :
    Option (RowState α) :=
  if r.lmeta.is_migrated = true then
    r.remote_modify_tuple_valid_bit host r.lmeta.migrated_row is_valid is_insert
  else
    some { r with lmeta := { r.lmeta with is_valid := is_valid } }

-- get_migrated_row after its search of the CXL index.
def get_migrated_row_latched (r : RowState α) (row : Ptr) (inc_ref_cnt : Bool) :
    RowState α × Option Ptr :=
  if (r.sccOf row).get_flag valid_flag_index = true then
    (if inc_ref_cnt then r.onScc row fun d => d.inc_ref_cnt else r, some row)
  else
    (r, none)

def decrease_reference_count_via_ptr (r : RowState α) (cxl_row : Ptr) : RowState α :=
  r.onScc cxl_row fun d => d.dec_ref_cnt

end RowState

end Tigon.TwoPLPasha
