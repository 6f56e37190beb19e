import Tigon.TwoPLPasha.Contents
import Tigon.TwoPLPasha.Transaction

namespace Tigon.TwoPLPasha

open Tigon.Library

-- The log_type of a record: 0, 1 and 2.
inductive LogType
  | update
  | insert
  | delete
deriving DecidableEq

-- A row is named by its table, its partition and its key. A record of a delete has no value.
structure RedoRecord (R α : Type) where
  log_type : LogType
  row : R
  epoch_version : Word
  value : Option α
deriving DecidableEq

-- Entries of the sets of a transaction, with what its commit logs and applies. A value is
-- what the buffer of the request holds when the transaction commits.
structure PointKey (R α : Type) where
  row : R
  value : α
  write_lock_bit : Bool
deriving DecidableEq

structure LoggedKey (R α : Type) where
  row : R
  value : α
  tid : Word
deriving DecidableEq

structure RangeKey (R α : Type) where
  type : ScanType
  scan_results : List (R × α)
deriving DecidableEq

structure DeleteKey (R : Type) where
  row : R
  tid : Word
deriving DecidableEq

structure WriteTransaction (R α : Type) where
  readSet : List (PointKey R α)
  writeSet : List (LoggedKey R α)
  scanSet : List (RangeKey R α)
  insertSet : List (LoggedKey R α)
  deleteSet : List (DeleteKey R)
deriving DecidableEq

namespace LoggedKey

variable {R α : Type}

def redo (log_type : LogType) (cur_global_epoch : Word) (k : LoggedKey R α) : RedoRecord R α :=
  ⟨log_type, k.row, generate_epoch_version k.tid cur_global_epoch, some k.value⟩

end LoggedKey

namespace WriteTransaction

variable {R α : Type}

def empty : WriteTransaction R α := ⟨[], [], [], [], []⟩

-- Nothing is logged for the scans.
def write_redo_logs_for_commit (txn : WriteTransaction R α) (cur_global_epoch : Word) :
    List (RedoRecord R α) :=
  txn.writeSet.map (LoggedKey.redo .update cur_global_epoch) ++
  txn.insertSet.map (LoggedKey.redo .insert cur_global_epoch) ++
  txn.deleteSet.map fun k =>
    ⟨.delete, k.row, generate_epoch_version k.tid cur_global_epoch, none⟩

-- The rows a commit removes: with phantom detection the results of scan_for_delete, and
-- the delete set without.
def deletes (enable_phantom_detection : Bool) (txn : WriteTransaction R α) : List R :=
  if enable_phantom_detection then
    txn.scanSet.flatMap fun k =>
      if k.type = .SCAN_FOR_DELETE then k.scan_results.map Prod.fst else []
  else txn.deleteSet.map DeleteKey.row

-- The rows a commit writes, with what it writes: the write-locked entries of the read set,
-- and with phantom detection the results of scan_for_update.
def updates (enable_phantom_detection : Bool) (txn : WriteTransaction R α) : List (R × α) :=
  (txn.readSet.filter fun k => k.write_lock_bit).map (fun k => (k.row, k.value)) ++
  (if enable_phantom_detection then
    txn.scanSet.flatMap fun k => if k.type = .SCAN_FOR_UPDATE then k.scan_results else []
  else [])

variable [DecidableEq R]

-- A master validates its placeholder. Another host's answer to a request for a key it has
-- is not looked at, and the row stays what it was.
def commitInsert (has_master_partition : R → Bool) (k : LoggedKey R α) (old : Option α) :
    Option α :=
  if has_master_partition k.row || old.isNone then some k.value else old

-- What a commit makes of the contents. An update finds its row by a pointer and does not
-- bring a removed row back.
def commit (enable_phantom_detection : Bool) (has_master_partition : R → Bool)
    (txn : WriteTransaction R α) (c : Contents R α) : Contents R α :=
  let c := txn.insertSet.foldl (fun c k => onKey c k.row (commitInsert has_master_partition k)) c
  let c := (txn.deletes enable_phantom_detection).foldl
    (fun c row => onKey c row fun _ => none) c
  (txn.updates enable_phantom_detection).foldl
    (fun c u => onKey c u.1 fun old => old.map fun _ => u.2) c

end WriteTransaction

section Replay

variable {R α : Type} [DecidableEq R]

def RedoRecord.apply (c : Contents R α) (r : RedoRecord R α) : Contents R α :=
  match r.log_type with
  | .update | .insert => Function.update c r.row r.value
  | .delete => Function.update c r.row none

def replay (log : List (RedoRecord R α)) (c : Contents R α) : Contents R α :=
  log.foldl RedoRecord.apply c

end Replay

namespace WriteTransaction

variable {R α : Type}

def locked (enable_phantom_detection : Bool) (txn : WriteTransaction R α) : List R :=
  (txn.readSet.filter fun k => k.write_lock_bit).map PointKey.row ++
  (if enable_phantom_detection then
    txn.scanSet.flatMap fun k =>
      if k.type = .SCAN_FOR_READ then [] else k.scan_results.map Prod.fst
  else txn.deleteSet.map DeleteKey.row)

section

variable (enable_phantom_detection : Bool) (has_master_partition : R → Bool) (c : Contents R α)

-- The transactions that come to their commit with contents `c`. A lock is given for a valid
-- row that is not write-locked, by the transaction itself least of all; a locked row stays
-- what it is until the commit. A placeholder goes in where there is no row. Without phantom
-- detection a scan locks nothing, a delete does, and inserts are local.
inductive Prepared : WriteTransaction R α → Prop
  | start : Prepared .empty
  | search_for_read {txn : WriteTransaction R α} (row : R) (value : α) (h : Prepared txn) :
      Prepared { txn with readSet := txn.readSet ++ [⟨row, value, false⟩] }
  | search_for_update {txn : WriteTransaction R α} (row : R) (value : α) (h : Prepared txn)
      (hvalid : (c row).isSome) (hlock : row ∉ txn.locked enable_phantom_detection) :
      Prepared { txn with readSet := txn.readSet ++ [⟨row, value, true⟩] }
  | update {txn : WriteTransaction R α} (k : LoggedKey R α) (h : Prepared txn) :
      Prepared { txn with writeSet := txn.writeSet ++ [k] }
  | scan {txn : WriteTransaction R α} (k : RangeKey R α) (h : Prepared txn)
      (hlock : enable_phantom_detection = true → k.type ≠ .SCAN_FOR_READ →
        (k.scan_results.map Prod.fst).Nodup ∧
        ∀ row ∈ k.scan_results.map Prod.fst,
          (c row).isSome ∧ row ∉ txn.locked enable_phantom_detection) :
      Prepared { txn with scanSet := txn.scanSet ++ [k] }
  | insert_row {txn : WriteTransaction R α} (k : LoggedKey R α) (h : Prepared txn)
      (hlocal : enable_phantom_detection = false → has_master_partition k.row = true)
      (hplace : has_master_partition k.row = true →
        c k.row = none ∧ ∀ k' ∈ txn.insertSet, k'.row ≠ k.row) :
      Prepared { txn with insertSet := txn.insertSet ++ [k] }
  | delete_row {txn : WriteTransaction R α} (k : DeleteKey R) (h : Prepared txn)
      (hlock : enable_phantom_detection = false →
        (c k.row).isSome ∧ k.row ∉ txn.locked enable_phantom_detection) :
      Prepared { txn with deleteSet := txn.deleteSet ++ [k] }

end

end WriteTransaction

end Tigon.TwoPLPasha
