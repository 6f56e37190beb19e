import Tigon.Library.Neighbour
import Tigon.Library.Transition
import Tigon.TwoPLPasha.Migration

namespace Tigon.TwoPLPasha

open RowState Tigon.Library

-- One partition of a B+tree table: the keys of the owner's local index, and for each key
-- its row with its shared memory and its entry in the CXL index. The memory of a key
-- outlives its row.
structure Table (K α : Type) where
  keys : Finset K
  row : K → RowState α
  allocated : List Ptr

namespace RowState

open TwoPLPashaSharedDataSCC (valid_flag_index)

variable {α : Type}

def onMigrated (f : TwoPLPashaMetadataShared → TwoPLPashaMetadataShared) (r : RowState α) :
    RowState α :=
  if r.lmeta.is_migrated = true then r.onSmeta r.lmeta.migrated_row f else r

def placeholder (value : α) (r : RowState α) : RowState α :=
  { r with lmeta := TwoPLPashaMetadataLocalInit false, data := value }

def delete (is_local_delete : Bool) (r : RowState α) : RowState α :=
  let r := if r.lmeta.is_migrated = true then
      let r := if is_local_delete then
          r.onScc r.lmeta.migrated_row fun d => d.clear_flag valid_flag_index
        else r
      { r with
        lmeta := { r.lmeta with migrated_row := 0, is_migrated := false }
        cxl := none }
    else r
  { r with lmeta := { r.lmeta with is_valid := false } }

end RowState

-- Calls on one row that leave the indexes alone. Those with a pointer come from other
-- hosts, and the pointer may be an old one.
inductive RowCall (α : Type)
  | lock (kind : LockKind) (copy : Bool)
  | update (value : α)
  | release (kind : LockKind)
  | releaseVersion (new_value : Word)
  | remoteLock (host : Host) (row : Ptr) (kind : LockKind) (copy inc_ref_cnt : Bool)
  | remoteUpdate (row : Ptr) (value : α)
  | remoteRelease (row : Ptr) (kind : LockKind)
  | remoteReleaseVersion (host : Host) (row : Ptr) (new_value : Word)
  | getMigratedRow (row : Ptr) (inc_ref_cnt : Bool)
  | decreaseReferenceCount (row : Ptr)
  | remoteModifyTupleValidBit (host : Host) (row : Ptr) (is_valid is_insert : Bool)
deriving DecidableEq

namespace RowCall

variable {α : Type}

def isLocal : RowCall α → Bool
  | lock .. | update _ | release _ | releaseVersion _ => true
  | _ => false

def apply (owner : Host) (r : RowState α) : RowCall α → Option (RowState α)
  | lock kind copy => some (localLock kind copy r owner).row
  | update value => some (r.update value)
  | release kind => some (r.lockRelease kind)
  | releaseVersion new_value => r.write_lock_release_version owner new_value
  | remoteLock host row kind copy inc_ref_cnt =>
    some (RowState.remoteLock kind copy inc_ref_cnt r host row).row
  | remoteUpdate row value => some (r.remote_update row value)
  | remoteRelease row kind => some (r.remoteLockRelease kind row)
  | remoteReleaseVersion host row new_value =>
    r.remote_write_lock_release_version host row new_value
  | getMigratedRow row inc_ref_cnt => some (r.get_migrated_row_latched row inc_ref_cnt).1
  | decreaseReferenceCount row => some (r.decrease_reference_count_via_ptr row)
  | remoteModifyTupleValidBit host row is_valid is_insert =>
    r.remote_modify_tuple_valid_bit host row is_valid is_insert

end RowCall

namespace Table

variable {K α : Type} [LinearOrder K]

def onRow (t : Table K α) (key : K) (f : RowState α → RowState α) : Table K α :=
  { t with row := Function.update t.row key (f (t.row key)) }

-- A processor handed a null neighbour skips it.
def onNeighbour (t : Table K α) (key : Option K)
    (f : TwoPLPashaMetadataShared → TwoPLPashaMetadataShared) : Table K α :=
  match key with
  | some key => t.onRow key (onMigrated f)
  | none => t

-- The bits of two neighbours about what lies between them, cleared or set where the
-- neighbour is migrated.
def clearAdjacent (prev next : Option K) (t : Table K α) : Table K α :=
  (t.onNeighbour prev fun m => m.clear_next_key_real_bit).onNeighbour next
    fun m => m.clear_prev_key_real_bit

def clearKeyReal (t : Table K α) (key : K) : Table K α :=
  t.clearAdjacent (prevIn t.keys key) (nextIn t.keys key)

def setKeyReal (t : Table K α) (key : K) : Table K α :=
  (t.onNeighbour (prevIn t.keys key) fun m => m.set_next_key_real_bit).onNeighbour
    (nextIn t.keys key) fun m => m.set_prev_key_real_bit

def addPlaceholder (t : Table K α) (key : K) (value : α) : Table K α :=
  { t.onRow key (placeholder value) with keys := insert key t.keys }

-- What an insert does to the rows the index hands it as neighbours. The result says
-- whether to insert. Without a next key there is nothing to lock and the call runs into
-- the null pointer.
def adjacent_tuples_processor (host : Host) (require_lock_next_key : Bool)
    (prev next : Option K) (t : Table K α) : Option (Table K α × Bool) :=
  if require_lock_next_key then
    next.map fun next =>
      let res := (t.row next).write_lock host
      let t := t.onRow next fun _ => res.row
      if res.success then (t.clearAdjacent prev (some next), true) else (t, false)
  else some (t.clearAdjacent prev next, true)

def insertBetween (host : Host) (key : K) (value : α) (require_lock_next_key : Bool)
    (prev next : Option K) (t : Table K α) : Option (Table K α × Bool) :=
  (t.adjacent_tuples_processor host require_lock_next_key prev next).map fun (t, should_insert) =>
    if should_insert then (t.addPlaceholder key value, true) else (t, false)

def insert_and_update_next_key_info (host : Host) (key : K) (value : α)
    (require_lock_next_key : Bool) (t : Table K α) : Option (Table K α × Bool) :=
  if key ∈ t.keys then some (t, false)
  else t.insertBetween host key value require_lock_next_key (prevIn t.keys key) (nextIn t.keys key)

def commitInsert (host : Host) (key : K) (t : Table K α) : Option (Table K α) :=
  if key ∈ t.keys then
    let t := t.clearKeyReal key
    ((t.row key).modify_tuple_valid_bit host true true).map fun r => t.onRow key fun _ => r
  else none

-- An abort takes the placeholder out of the local index and touches nothing else.
def abortInsert (key : K) (t : Table K α) : Table K α :=
  { t with keys := t.keys.erase key }

def delete_and_update_next_key_info (key : K) (is_local_delete : Bool) (t : Table K α) :
    Table K α :=
  if key ∈ t.keys then
    { (t.clearKeyReal key).onRow key (delete is_local_delete) with
      keys := t.keys.erase key }
  else t

def isMigrated (t : Table K α) (key : Option K) : Bool :=
  match key with
  | some key => (t.row key).lmeta.is_migrated
  | none => false

def keyReal (is_prev_key_migrated is_next_key_migrated : Bool) (m : TwoPLPashaMetadataShared) :
    TwoPLPashaMetadataShared :=
  let m := if is_next_key_migrated then m.set_next_key_real_bit else m.clear_next_key_real_bit
  if is_prev_key_migrated then m.set_prev_key_real_bit else m.clear_prev_key_real_bit

def move_from_btree_to_shared_region (ctx : Context) (host : Host) (alloc : Allocation α)
    (inc_ref_cnt : Bool) (key : K) (t : Table K α) : Option (Table K α × migration_result) :=
  if key ∈ t.keys then
    let real := keyReal (t.isMigrated (prevIn t.keys key)) (t.isMigrated (nextIn t.keys key))
    (moveIn ctx host alloc inc_ref_cnt real (t.row key)).map fun (r, res) =>
      let t := t.onRow key fun _ => r
      (if res = .FAIL_OOM then t else t.setKeyReal key, res)
  else some (t, .FAIL_OOM)

def move_from_btree_to_partition (ctx : Context) (host : Host) (key : K) (t : Table K α) :
    Table K α × Bool :=
  if key ∈ t.keys then
    let t := t.clearKeyReal key
    let (r, move_out_success) := moveOut ctx host (t.row key)
    (t.onRow key fun _ => r, move_out_success)
  else (t, false)

end Table

inductive TableLabel (K α : Type)
  | insert (key : K) (value : α) (require_lock_next_key : Bool)
  | commitInsert (key : K)
  | abortInsert (key : K)
  | delete (key : K) (is_local_delete : Bool)
  | moveIn (key : K) (alloc : Allocation α) (inc_ref_cnt : Bool)
  | moveOut (key : K)
  | call (key : K) (call : RowCall α)
deriving DecidableEq

namespace Table

variable {K α : Type} [LinearOrder K]

def load (keys : Finset K) (smeta : Ptr → TwoPLPashaMetadataShared)
    (scc : Word → TwoPLPashaSharedDataSCC α) (value : K → α) : Table K α where
  keys := keys
  row := fun key => init smeta scc (value key) true
  allocated := []

-- The allocator hands out new blocks, and every offset fits its field.
def admits (t : Table K α) (alloc : Allocation α) : Prop :=
  (∀ p ∈ alloc.smeta, p ≠ 0 ∧ p ∉ t.allocated) ∧ (∀ b ∈ alloc.scc, b.1.toNat < 2 ^ 37)

omit [LinearOrder K] in
instance (t : Table K α) (alloc : Allocation α) : Decidable (t.admits alloc) :=
  inferInstanceAs (Decidable (_ ∧ _))

def step (ctx : Context) (host : Host) (t : Table K α) : TableLabel K α → Option (Table K α)
  | .insert key value require_lock_next_key =>
    (t.insert_and_update_next_key_info host key value require_lock_next_key).map Prod.fst
  | .commitInsert key => t.commitInsert host key
  | .abortInsert key => some (t.abortInsert key)
  | .delete key is_local_delete => some (t.delete_and_update_next_key_info key is_local_delete)
  | .moveIn key alloc inc_ref_cnt =>
    if t.admits alloc then
      (t.move_from_btree_to_shared_region ctx host alloc inc_ref_cnt key).map fun res =>
        { res.1 with allocated := alloc.smeta.toList ++ t.allocated }
    else none
  | .moveOut key => some (t.move_from_btree_to_partition ctx host key).1
  | .call key call =>
    if call.isLocal = true → key ∈ t.keys then
      (call.apply host (t.row key)).map fun r => t.onRow key fun _ => r
    else none

end Table

end Tigon.TwoPLPasha
