import Tigon.TwoPLPasha.Metadata

namespace Tigon.TwoPLPasha

open Tigon.Library

-- What the metadata pointer of a row entity leads to: the owner's row or its shared
-- part. A null pointer is none.
inductive RowPtr (ρ : Type)
  | localRow (row : ρ)
  | cxlRow (row : ρ)
deriving DecidableEq

def RowPtr.row {ρ : Type} : RowPtr ρ → ρ
  | localRow row | cxlRow row => row

def RowPtr.fits {ρ : Type} (remote : Bool) : RowPtr ρ → Bool
  | localRow _ => !remote
  | cxlRow _ => remote

inductive ScanType
  | SCAN_FOR_READ
  | SCAN_FOR_UPDATE
  | SCAN_FOR_INSERT
  | SCAN_FOR_DELETE
deriving DecidableEq

def ScanType.kind : ScanType → LockKind
  | SCAN_FOR_READ => .read
  | SCAN_FOR_UPDATE | SCAN_FOR_INSERT | SCAN_FOR_DELETE => .write

inductive SearchType
  | search_local_index
  | search_for_read
  | search_for_update
deriving DecidableEq

namespace SearchType

def local_index_read_bit : SearchType → Bool
  | search_local_index => true
  | search_for_read | search_for_update => false

def read_lock_request_bit : SearchType → Bool
  | search_local_index | search_for_read => true
  | search_for_update => false

def write_lock_request_bit : SearchType → Bool
  | search_local_index | search_for_read => false
  | search_for_update => true

end SearchType

-- Entries of the three sets of a transaction, each a `TwoPLPashaRWKey` with the fields
-- its set uses; `has_master_partition` is what the partitioner says of its partition, and
-- `read_on_replica` whether this host holds a replica of it that it may read.
structure ReadKey (κ ρ : Type) where
  key : κ
  request : SearchType
  has_master_partition : Bool
  processed : Bool
  read_lock_bit : Bool
  write_lock_bit : Bool
  tid : Word
  cached_local_row : Option ρ
  cached_migrated_row : Option ρ
  reference_counted : Bool

structure InsertKey (κ ρ : Type) where
  key : κ
  has_master_partition : Bool
  read_on_replica : Bool
  processed : Bool
  require_lock_next_row : Bool
  next_row_entity : Option (RowPtr ρ)
  is_next_row_locked : Bool
  inserted_cxl_row : Option ρ
  reference_counted : Bool

structure ScanKey (ρ : Type) where
  has_master_partition : Bool
  read_on_replica : Bool
  type : ScanType
  processed : Bool
  scan_results : List (RowPtr ρ)
  next_row_entity : Option (RowPtr ρ)
  is_next_row_locked : Bool

structure Transaction (κ ρ : Type) where
  readSet : List (ReadKey κ ρ)
  insertSet : List (InsertKey κ ρ)
  scanSet : List (ScanKey ρ)

-- The calls by which commit and abort give back what the transaction holds.
-- `remote` tells the releases of a shared row from those of a local one.
inductive Call (κ ρ : Type)
  | lock_release (remote : Bool) (kind : LockKind) (row : Option (RowPtr ρ))
      (new_value : Option Word)
  | release_migrated_row (key : κ)
  | decrease_reference_count_via_ptr (cxl_row : Option (RowPtr ρ))
  | remove (key : κ)
deriving DecidableEq

def generate_epoch_version (cur_epoch_version cur_global_epoch : Word) : Word :=
  let epoch := cur_epoch_version >>> 32
  if epoch < cur_global_epoch then cur_global_epoch <<< 32 else cur_epoch_version + 1

def maxWord (a b : Word) : Word := if a < b then b else a

def latest_tid {κ ρ : Type} (max_tid : Word) (readSet : List (ReadKey κ ρ)) : Word :=
  maxWord (readSet.foldl (fun next_tid k => maxWord next_tid k.tid) 0) max_tid

-- The result is also the worker's new max_tid.
def generate_tid {κ ρ : Type} (max_tid : Word) (readSet : List (ReadKey κ ρ)) : Word :=
  latest_tid max_tid readSet + 1

section

variable {κ ρ : Type}

namespace ReadKey

def cached_row (k : ReadKey κ ρ) : Option (RowPtr ρ) :=
  if k.has_master_partition then k.cached_local_row.map .localRow
  else k.cached_migrated_row.map .cxlRow

def releases (k : ReadKey κ ρ) (new_value : Option Word) : List (Call κ ρ) :=
  (if k.read_lock_bit then
    [.lock_release (!k.has_master_partition) .read k.cached_row none] else []) ++
  (if k.write_lock_bit then
    [.lock_release (!k.has_master_partition) .write k.cached_row new_value] else [])

def release_lock (cur_global_epoch : Word) (k : ReadKey κ ρ) : List (Call κ ρ) :=
  k.releases (some (generate_epoch_version k.tid cur_global_epoch))

def abort (k : ReadKey κ ρ) : List (Call κ ρ) := k.releases none

def release_migrated_rows (k : ReadKey κ ρ) : List (Call κ ρ) :=
  if k.reference_counted then [.release_migrated_row k.key] else []

end ReadKey

namespace InsertKey

def release_lock (commit_tid : Word) (k : InsertKey κ ρ) : List (Call κ ρ) :=
  if k.is_next_row_locked then
    [.lock_release (!k.has_master_partition) .write k.next_row_entity (some commit_tid)]
  else []

def abort (k : InsertKey κ ρ) : List (Call κ ρ) :=
  if k.processed && k.has_master_partition then
    .remove k.key ::
      (if k.is_next_row_locked then [.lock_release false .write k.next_row_entity none] else [])
  else []

def release_migrated_rows (k : InsertKey κ ρ) : List (Call κ ρ) :=
  if k.reference_counted then
    if k.has_master_partition then [.release_migrated_row k.key]
    else [.decrease_reference_count_via_ptr (k.inserted_cxl_row.map .cxlRow)]
  else []

end InsertKey

namespace ScanKey

def releaseNext (k : ScanKey ρ) : List (Call κ ρ) :=
  if k.is_next_row_locked then
    [.lock_release (!k.has_master_partition) k.type.kind k.next_row_entity none]
  else []

def releaseResults (k : ScanKey ρ) : List (Call κ ρ) :=
  k.scan_results.map fun row =>
    .lock_release (!k.has_master_partition) k.type.kind (some row) none

-- Rows a commit deletes are not unlocked.
def release_lock (k : ScanKey ρ) : List (Call κ ρ) :=
  k.releaseNext ++ (if k.type = .SCAN_FOR_DELETE then [] else k.releaseResults)

def abort (k : ScanKey ρ) : List (Call κ ρ) := k.releaseNext ++ k.releaseResults

def release_migrated_rows (k : ScanKey ρ) : List (Call κ ρ) :=
  if k.has_master_partition = false then
    (if k.is_next_row_locked then [.decrease_reference_count_via_ptr k.next_row_entity] else []) ++
    (if k.type = .SCAN_FOR_DELETE then []
     else k.scan_results.map fun row => .decrease_reference_count_via_ptr (some row))
  else []

end ScanKey

namespace Transaction

def empty : Transaction κ ρ := ⟨[], [], []⟩

def release_lock (txn : Transaction κ ρ) (commit_tid cur_global_epoch : Word) :
    List (Call κ ρ) :=
  txn.readSet.flatMap (ReadKey.release_lock cur_global_epoch) ++
  txn.insertSet.flatMap (InsertKey.release_lock commit_tid) ++
  txn.scanSet.flatMap ScanKey.release_lock

def release_migrated_rows (txn : Transaction κ ρ) : List (Call κ ρ) :=
  txn.readSet.flatMap ReadKey.release_migrated_rows ++
  txn.insertSet.flatMap InsertKey.release_migrated_rows ++
  txn.scanSet.flatMap ScanKey.release_migrated_rows

def abortLocks (txn : Transaction κ ρ) : List (Call κ ρ) :=
  txn.insertSet.flatMap InsertKey.abort ++ txn.readSet.flatMap ReadKey.abort ++
  txn.scanSet.flatMap ScanKey.abort

def abort (txn : Transaction κ ρ) : List (Call κ ρ) :=
  txn.abortLocks ++ txn.release_migrated_rows

end Transaction

end

end Tigon.TwoPLPasha
