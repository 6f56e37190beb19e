import Tigon.TwoPLPasha.Row

namespace Tigon.TwoPLPasha

inductive migration_result
  | SUCCESS
  | FAIL_OOM
  | FAIL_ALREADY_IN_CXL
deriving DecidableEq

-- What the CXL allocator answers during one move-in, none being out of memory.
-- A block of SCC data comes with the bytes it had before.
structure Allocation (α : Type) where
  smeta : Option Ptr
  scc : Option (Word × TwoPLPashaSharedDataSCC α)
deriving DecidableEq

namespace RowState

open TwoPLPashaSharedDataSCC (valid_flag_index)

variable {α : Type}

def sccForMoveIn (r : RowState α) (ctx : Context) (alloc : Allocation α) :
    Option (RowState α × Word) :=
  match r.lmeta.scc_data, ctx.enable_scc with
  | some o, true => some (r, o)
  | _, _ =>
    alloc.scc.map fun (o, d) =>
      ({ r with
        lmeta := { r.lmeta with scc_data := some o }
        scc := Function.update r.scc o d }, o)

def copyLock (tid : Word) (m : TwoPLPashaMetadataShared) : TwoPLPashaMetadataShared :=
  let m := m.set_reader_count (read_lock_num tid)
  if is_write_locked tid then m.set_write_locked else m.clear_write_locked

def copyIn (ctx : Context) (r : RowState α) (inc_ref_cnt : Bool)
    (d : TwoPLPashaSharedDataSCC α) : TwoPLPashaSharedDataSCC α :=
  let d := if r.lmeta.is_valid then d.set_flag valid_flag_index else d.clear_flag valid_flag_index
  let d := { d with tid := r.lmeta.tid }
  let d := if r.lmeta.is_data_modified_since_moved_out
      || ctx.enable_migration_optimization == false then { d with data := r.data } else d
  if inc_ref_cnt then d.inc_ref_cnt else d

-- The body both move-ins share, from the allocated blocks to the release of the
-- latch; `keyReal` is what the B+tree variant does to the neighbour bits.
def installShared (ctx : Context) (host : Host) (inc_ref_cnt : Bool)
    (keyReal : TwoPLPashaMetadataShared → TwoPLPashaMetadataShared) (r : RowState α)
    (p : Ptr) (o : Word) : Option (RowState α) :=
  let m := (TwoPLPashaMetadataShared.construct o).init_scc_metadata host
  let m := (copyLock r.lmeta.tid m).clear_is_data_modified_since_moved_in
  let lmeta := { r.lmeta with
    is_data_modified_since_moved_out := false
    migrated_row := p
    is_migrated := true }
  { r with
    lmeta := lmeta
    smeta := Function.update r.smeta p (keyReal m)
    scc := Function.update r.scc o (copyIn ctx r inc_ref_cnt (r.scc o))
    -- an insert of a present key changes nothing, and its result is not looked at
    cxl := some (r.cxl.getD p) }.finish_write host p

def moveIn (ctx : Context) (host : Host) (alloc : Allocation α) (inc_ref_cnt : Bool)
    (keyReal : TwoPLPashaMetadataShared → TwoPLPashaMetadataShared) (r : RowState α) :
    Option (RowState α × migration_result) :=
  if r.lmeta.is_migrated = false then
    match alloc.smeta with
    | none => some (r, .FAIL_OOM)
    | some p =>
      match r.sccForMoveIn ctx alloc with
      | none => some (r, .FAIL_OOM)
      | some (r', o) =>
        (installShared ctx host inc_ref_cnt keyReal r' p o).map fun r'' => (r'', .SUCCESS)
  else
    some (if inc_ref_cnt then r.onScc r.lmeta.migrated_row fun d => d.inc_ref_cnt else r,
      .FAIL_ALREADY_IN_CXL)

def move_from_hashmap_to_shared_region (ctx : Context) (host : Host) (alloc : Allocation α)
    (inc_ref_cnt : Bool) (r : RowState α) : Option (RowState α × migration_result) :=
  moveIn ctx host alloc inc_ref_cnt id r

def copyLockBack (d : TwoPLPashaSharedDataSCC α) (m : TwoPLPashaMetadataShared) : Word :=
  let tid := set_read_lock_num d.tid m.get_reader_count
  if m.is_write_locked then set_write_lock_bit tid else clear_write_lock_bit tid

def uninstallShared (ctx : Context) (host : Host) (r : RowState α) : RowState α :=
  let row := r.lmeta.migrated_row
  let r := r.prepare_read host row
  let d := r.sccOf row
  let m := r.smeta row
  let lmeta := { r.lmeta with
    is_valid := d.get_flag valid_flag_index
    tid := copyLockBack d m
    is_data_modified_since_moved_out := false
    migrated_row := 0
    is_migrated := false }
  let data := if m.is_data_modified_since_moved_in
    || ctx.enable_migration_optimization == false then d.data else r.data
  let r := (r.onSmeta row fun m => m.clear_is_data_modified_since_moved_in).onScc row
    fun d => d.clear_flag valid_flag_index
  { r with lmeta := lmeta, data := data, cxl := none }

def moveOut (ctx : Context) (host : Host) (r : RowState α) : RowState α × Bool :=
  if r.lmeta.is_migrated = true then
    if (r.sccOf r.lmeta.migrated_row).ref_cnt > 0 then
      (r, false)
    else
      (uninstallShared ctx host r, true)
  else
    (r, true)

def move_from_hashmap_to_partition (ctx : Context) (host : Host) (r : RowState α) :
    RowState α × Bool :=
  moveOut ctx host r

end RowState

end Tigon.TwoPLPasha
