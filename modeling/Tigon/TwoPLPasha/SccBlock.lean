import Tigon.Library.LineWalk
import Tigon.Library.ReadersWriter
import Tigon.Library.Transition

namespace Tigon.TwoPLPasha

open Tigon.Library

namespace SCCManager

def cacheline_size : Nat := 64

def clflush (addr len : Nat) : Finset Nat := lineWalk cacheline_size addr len

def clwb (addr len : Nat) : Finset Nat := lineWalk cacheline_size addr len

end SCCManager

namespace SccLayout

def migration_policy_meta_size : Nat := 24

def tid : Nat := 0

def flags : Nat := 8

def ref_cnt : Nat := 9

def migration_policy_meta : Nat := 10

def data : Nat := migration_policy_meta + migration_policy_meta_size

def sizeofSharedDataSCC : Nat := (data + 7) / 8 * 8

def sizeofMetadataShared : Nat := 8

end SccLayout

structure SccBlock where
  addr : Nat
  value_size : Nat
deriving DecidableEq

def SccBlock.touched (b : SccBlock) (offset len : Nat) : Finset Nat :=
  Library.touched SCCManager.cacheline_size (b.addr + offset) len

def SccBlock.lines (b : SccBlock) : Finset Nat :=
  b.touched 0 (SccLayout.sizeofSharedDataSCC + b.value_size)

-- One host and the SCC data of one row. `modified` are the lines it has stored to since the
-- write it is in began, `missed` those of them that a finish_write did not write back, and
-- `unflushed` the lines of the block that a prepare_read set the host's bit without flushing.
structure SccHost where
  migrated : Bool
  bit : Bool
  writing : Bool
  modified : Finset Nat
  missed : Finset Nat
  unflushed : Finset Nat
deriving DecidableEq

-- What the host may do with the row, and what other hosts do to it.
inductive SccCall
  | read_lock (success : Bool)
  | take_read_lock_and_read (success : Bool)
  | remote_take_read_lock_and_read (inc_ref_cnt success : Bool)
  | remote_read_lock_and_inc_ref_cnt (success : Bool)
  | write_lock (success : Bool)
  | take_write_lock_and_read (success : Bool)
  | remote_take_write_lock_and_read (inc_ref_cnt success : Bool)
  | remote_write_lock_and_inc_ref_cnt (success : Bool)
  | update
  | remote_update
  | write_lock_release
  | remote_write_lock_release
  | write_lock_release_version
  | remote_write_lock_release_version
  | modify_tuple_valid_bit (is_insert : Bool)
  | remote_modify_tuple_valid_bit (is_insert : Bool)
  | move_from_hashmap_to_shared_region (copied inc_ref_cnt : Bool)
  | move_from_btree_to_shared_region (copied inc_ref_cnt : Bool)
  | move_from_hashmap_to_partition
  | move_from_btree_to_partition
  | movedInElsewhere
  | movedOutElsewhere
  | finishedElsewhere
deriving DecidableEq

namespace SccHost

open SCCManager SccLayout

variable (b : SccBlock)

def store (offset len : Nat) (s : SccHost) : SccHost :=
  { s with modified := s.modified ∪ b.touched offset len }

def storeIf (cond : Bool) (offset len : Nat) (s : SccHost) : SccHost :=
  if cond then s.store b offset len else s

def prepare_read (size : Nat) (s : SccHost) : SccHost :=
  if s.bit then s
  else { s with bit := true, unflushed := s.unflushed ∪ (b.lines \ clflush b.addr size) }

def finish_write (size : Nat) (s : SccHost) : Option SccHost :=
  if s.bit then
    some { s with missed := s.missed ∪ (s.modified \ clwb b.addr size), modified := ∅ }
  else none

-- A lock call on the shared row. The write lock is where a write begins.
def lock (kind : LockKind) (inc_ref_cnt success : Bool) (s : SccHost) : SccHost :=
  let s := s.prepare_read b (sizeofSharedDataSCC + b.value_size)
  if success then
    let s := match kind with
      | .read => s
      | .write => { s with writing := true, modified := ∅ }
    s.storeIf b inc_ref_cnt ref_cnt 1
  else s

def lockLocal (kind : LockKind) (success : Bool) (s : SccHost) : SccHost :=
  match kind, success with
  | .write, true => { s with writing := true, modified := ∅ }
  | _, _ => s

def releaseVersion (s : SccHost) : Option SccHost :=
  ({ s with writing := false }.store b tid 8).finish_write b (sizeofMetadataShared + b.value_size)

def setValid (is_insert : Bool) (s : SccHost) : Option SccHost :=
  if is_insert then
    -- nobody can lock a row that is not valid yet
    if s.writing then none
    else (({ s with modified := ∅ }.store b flags 1).prepare_read b
      sizeofSharedDataSCC).finish_write b sizeofSharedDataSCC
  else some (s.store b flags 1)

def moveIn (copied inc_ref_cnt : Bool) (s : SccHost) : Option SccHost :=
  if s.migrated then some (s.storeIf b inc_ref_cnt ref_cnt 1)
  else
    let s := { s with migrated := true, bit := true, modified := ∅ }.store b migration_policy_meta
      migration_policy_meta_size
    let s := (s.store b flags 1).store b tid 8
    let s := (s.storeIf b copied data b.value_size).storeIf b inc_ref_cnt ref_cnt 1
    s.finish_write b (sizeofSharedDataSCC + b.value_size)

def moveOut (s : SccHost) : SccHost :=
  { (s.prepare_read b (sizeofSharedDataSCC + b.value_size)).store b flags 1 with migrated := false }

-- A call of the owner, which leaves the SCC data alone if the row is local, and one through a
-- pointer to the shared row.
def owned (shared : SccHost → Option SccHost) (onLocal : SccHost → SccHost) (s : SccHost) :
    Option SccHost :=
  if s.migrated then shared s else some (onLocal s)

def pointed (shared : SccHost → Option SccHost) (s : SccHost) : Option SccHost :=
  if s.migrated then shared s else none

def written (f : SccHost → Option SccHost) (s : SccHost) : Option SccHost :=
  if s.writing then f s else none

def ownerLock (kind : LockKind) (success : Bool) : SccHost → Option SccHost :=
  owned (fun s => some (s.lock b kind false success)) (lockLocal kind success)

def remoteLock (kind : LockKind) (inc_ref_cnt success : Bool) : SccHost → Option SccHost :=
  pointed fun s => some (s.lock b kind inc_ref_cnt success)

def step (s : SccHost) : SccCall → Option SccHost
  | .read_lock success => s.ownerLock b .read success
  | .take_read_lock_and_read success => s.ownerLock b .read success
  | .remote_take_read_lock_and_read inc success => s.remoteLock b .read inc success
  | .remote_read_lock_and_inc_ref_cnt success => s.remoteLock b .read true success
  | .write_lock success => s.ownerLock b .write success
  | .take_write_lock_and_read success => s.ownerLock b .write success
  | .remote_take_write_lock_and_read inc success => s.remoteLock b .write inc success
  | .remote_write_lock_and_inc_ref_cnt success => s.remoteLock b .write true success
  | .update => s.written (owned (fun s => some (s.store b data b.value_size)) id)
  | .remote_update => s.written (pointed fun s => some (s.store b data b.value_size))
  | .write_lock_release => s.written fun s => some { s with writing := false }
  | .remote_write_lock_release => s.written (pointed fun s => some { s with writing := false })
  | .write_lock_release_version =>
    s.written (owned (fun s => s.releaseVersion b) fun s => { s with writing := false })
  | .remote_write_lock_release_version => s.written (pointed fun s => s.releaseVersion b)
  | .modify_tuple_valid_bit is_insert => s.owned (fun s => s.setValid b is_insert) id
  | .remote_modify_tuple_valid_bit is_insert => s.pointed fun s => s.setValid b is_insert
  | .move_from_hashmap_to_shared_region copied inc => s.moveIn b copied inc
  | .move_from_btree_to_shared_region copied inc => s.moveIn b copied inc
  | .move_from_hashmap_to_partition => s.owned (fun s => some (s.moveOut b)) id
  | .move_from_btree_to_partition => s.owned (fun s => some (s.moveOut b)) id
  | .movedInElsewhere => if s.migrated then none else some { s with migrated := true, bit := false }
  | .movedOutElsewhere => some { s with migrated := false }
  | .finishedElsewhere => some { s with bit := false }

def start : SccHost := ⟨false, false, false, ∅, ∅, ∅⟩

end SccHost

end Tigon.TwoPLPasha
