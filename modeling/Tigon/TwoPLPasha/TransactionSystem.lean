import Tigon.Library.Transition
import Tigon.TwoPLPasha.Requests

namespace Tigon.TwoPLPasha

open Tigon.Library

inductive Pending
  | read (key_offset : Nat)
  | scan (key_offset : Nat)
  | insert (key_offset : Nat)
deriving DecidableEq

-- Where the worker is: in the transaction's own code, in one of the loops of
-- `process_requests` with so many entries left, waiting for the owners there or in `commit`,
-- making the calls that end `commit` or `abort`, or behind them.
inductive Phase (κ ρ : Type)
  | executing
  | reads (left : Nat)
  | scans (left : Nat)
  | inserts (left : Nat)
  | responses
  | syncing
  | releasing (calls : List (Call κ ρ))
  | returned
deriving DecidableEq

-- One transaction with phantom detection on. The CXL index is changed by others at any
-- time; `deleted` are the rows the transaction has deleted and `ledger` what it holds.
structure TransactionSystem (κ ρ : Type) where
  txn : Transaction κ ρ
  abort_lock : Bool
  phase : Phase κ ρ
  pending : List Pending
  cxl_index : κ → Option ρ
  deleted : List ρ
  ledger : Ledger (Resource ρ)

-- A label carries what the step meets: rows, flags and whether a lock is granted.
inductive TransactionLabel (κ ρ : Type)
  | add_to_read_set (request : SearchType) (key : κ) (has_master_partition : Bool)
  | add_to_scan_set (type : ScanType) (has_master_partition read_on_replica : Bool)
  | add_to_insert_set (key : κ) (has_master_partition read_on_replica require_lock_next_row : Bool)
  | process_requests
  | read (answer : PointAnswer ρ)
  | scan (visits : List (ScanVisit ρ))
  | insert (answer : InsertAnswer ρ)
  | data_migration_response (key_offset : Nat) (moved_in : Bool) (answer : PointAnswer ρ)
  | data_migration_response_for_scan (key_offset : Nat) (visits : List (ScanVisit ρ))
  | return_from_requests
  | commit
  | remote_insert_response (key_offset : Nat) (moved : Option ρ)
  | finish_commit (commit_tid cur_global_epoch : Word)
  | abort
  | release
  | changeIndex (key : κ) (row : Option ρ)
deriving DecidableEq

namespace TransactionSystem

variable {κ ρ : Type}

def start (cxl_index : κ → Option ρ) : TransactionSystem κ ρ where
  txn := .empty
  abort_lock := false
  phase := .executing
  pending := []
  cxl_index := cxl_index
  deleted := []
  ledger := some 0

def setRead (s : TransactionSystem κ ρ) (n : Nat) (k : ReadKey κ ρ)
    (ledger : Ledger (Resource ρ)) : TransactionSystem κ ρ :=
  { s with txn := { s.txn with readSet := s.txn.readSet.set n k }, ledger := ledger }

def setScan (s : TransactionSystem κ ρ) (n : Nat) (k : ScanKey ρ)
    (ledger : Ledger (Resource ρ)) : TransactionSystem κ ρ :=
  { s with txn := { s.txn with scanSet := s.txn.scanSet.set n k }, ledger := ledger }

def setInsert (s : TransactionSystem κ ρ) (n : Nat) (k : InsertKey κ ρ)
    (ledger : Ledger (Resource ρ)) : TransactionSystem κ ρ :=
  { s with txn := { s.txn with insertSet := s.txn.insertSet.set n k }, ledger := ledger }

-- How a loop of `process_requests` goes on after an entry. A failure ends all loops, but
-- not before the answers to what has been sent are in.
def advance (s : TransactionSystem κ ρ) (next : Phase κ ρ) (request : Pending) :
    Progress → TransactionSystem κ ρ
  | .done => { s with phase := next }
  | .sent => { s with phase := next, pending := request :: s.pending }
  | .failed => { s with phase := .responses, abort_lock := true }

-- The loops go from the last entry down to the first one that is processed already.
def readStep (s : TransactionSystem κ ρ) (left : Nat) (answer : PointAnswer ρ) :
    Option (TransactionSystem κ ρ) :=
  match left with
  | 0 => some { s with phase := .scans s.txn.scanSet.length }
  | n + 1 =>
    s.txn.readSet[n]?.bind fun k =>
      if k.processed then some { s with phase := .scans s.txn.scanSet.length }
      else
        (k.process s.cxl_index answer s.ledger).map fun h =>
          (s.setRead n h.entry h.ledger).advance (.reads n) (.read n) h.progress

def scanStep [DecidableEq ρ] (s : TransactionSystem κ ρ) (left : Nat)
    (visits : List (ScanVisit ρ)) : Option (TransactionSystem κ ρ) :=
  match left with
  | 0 => some { s with phase := .inserts s.txn.insertSet.length }
  | n + 1 =>
    s.txn.scanSet[n]?.map fun k =>
      if k.processed then { s with phase := .inserts s.txn.insertSet.length }
      else
        let h := k.process s.cxl_index visits s.ledger
        (s.setScan n h.entry h.ledger).advance (.scans n) (.scan n) h.progress

-- A failed insert tells the transaction's own code to abort, through `abort_insert`.
def insertStep (s : TransactionSystem κ ρ) (left : Nat) (answer : InsertAnswer ρ) :
    Option (TransactionSystem κ ρ) :=
  match left with
  | 0 => some { s with phase := .responses }
  | n + 1 =>
    s.txn.insertSet[n]?.bind fun k =>
      if k.processed then some { s with phase := .responses }
      else
        (k.process answer s.ledger).map fun h =>
          { s.setInsert n h.entry h.ledger with
            phase := if h.progress = .failed then .responses else .inserts n }

def readResponse (s : TransactionSystem κ ρ) (key_offset : Nat) (moved_in : Bool)
    (answer : PointAnswer ρ) : Option (TransactionSystem κ ρ) :=
  if .read key_offset ∈ s.pending then
    s.txn.readSet[key_offset]?.map fun k =>
      let h := k.data_migration_response s.cxl_index moved_in answer s.ledger
      { s.setRead key_offset h.entry h.ledger with
        abort_lock := s.abort_lock || h.progress = .failed
        pending := s.pending.erase (.read key_offset) }
  else none

def scanResponse (s : TransactionSystem κ ρ) (key_offset : Nat) (visits : List (ScanVisit ρ)) :
    Option (TransactionSystem κ ρ) :=
  if .scan key_offset ∈ s.pending then
    s.txn.scanSet[key_offset]?.map fun k =>
      let h := k.data_migration_response_for_scan visits s.ledger
      { s.setScan key_offset h.entry h.ledger with
        abort_lock := s.abort_lock || h.progress = .failed
        pending := s.pending.erase (.scan key_offset) }
  else none

def insertResponse (s : TransactionSystem κ ρ) (key_offset : Nat) (moved : Option ρ) :
    Option (TransactionSystem κ ρ) :=
  if .insert key_offset ∈ s.pending then
    s.txn.insertSet[key_offset]?.bind fun k =>
      (k.remote_insert_response s.cxl_index moved s.ledger).map fun h =>
        { s.setInsert key_offset h.1 h.2 with
          pending := s.pending.erase (.insert key_offset) }
  else none

def abort (s : TransactionSystem κ ρ) : TransactionSystem κ ρ :=
  { s with phase := .releasing s.txn.abort }

def remoteInserts (insertSet : List (InsertKey κ ρ)) : List Pending :=
  ((List.range insertSet.length).filter fun i =>
    insertSet[i]?.any fun k => !k.has_master_partition).map .insert

def commit (s : TransactionSystem κ ρ) : TransactionSystem κ ρ :=
  if s.abort_lock then s.abort
  else { s with phase := .syncing, pending := remoteInserts s.txn.insertSet }

def deletes (txn : Transaction κ ρ) : List ρ :=
  txn.scanSet.flatMap fun k =>
    if k.type = .SCAN_FOR_DELETE then k.scan_results.map RowPtr.row else []

def finishCommit (s : TransactionSystem κ ρ) (commit_tid cur_global_epoch : Word) :
    TransactionSystem κ ρ :=
  { s with
    deleted := deletes s.txn
    phase := .releasing
      (s.txn.release_lock commit_tid cur_global_epoch ++ s.txn.release_migrated_rows) }

def releaseStep [DecidableEq ρ] (s : TransactionSystem κ ρ) :
    List (Call κ ρ) → TransactionSystem κ ρ
  | [] => { s with phase := .returned }
  | call :: calls =>
    { s with phase := .releasing calls, ledger := call.apply s.cxl_index s.ledger }

def step [DecidableEq κ] [DecidableEq ρ] (s : TransactionSystem κ ρ) :
    TransactionLabel κ ρ → Option (TransactionSystem κ ρ)
  | .add_to_read_set request key has_master_partition =>
    if s.phase = .executing then
      some { s with txn := { s.txn with readSet := s.txn.readSet ++
        [.start request key has_master_partition] } }
    else none
  | .add_to_scan_set type has_master_partition read_on_replica =>
    if s.phase = .executing then
      some { s with txn := { s.txn with scanSet := s.txn.scanSet ++
        [.start type has_master_partition read_on_replica] } }
    else none
  | .add_to_insert_set key has_master_partition read_on_replica require_lock_next_row =>
    if s.phase = .executing then
      some { s with txn := { s.txn with insertSet := s.txn.insertSet ++
        [.start key has_master_partition read_on_replica require_lock_next_row] } }
    else none
  | .process_requests =>
    if s.phase = .executing then some { s with phase := .reads s.txn.readSet.length } else none
  | .read answer =>
    match s.phase with
    | .reads left => s.readStep left answer
    | _ => none
  | .scan visits =>
    match s.phase with
    | .scans left => s.scanStep left visits
    | _ => none
  | .insert answer =>
    match s.phase with
    | .inserts left => s.insertStep left answer
    | _ => none
  | .data_migration_response key_offset moved_in answer =>
    if s.phase = .responses then s.readResponse key_offset moved_in answer else none
  | .data_migration_response_for_scan key_offset visits =>
    if s.phase = .responses then s.scanResponse key_offset visits else none
  | .return_from_requests =>
    if s.phase = .responses ∧ s.pending = [] then some { s with phase := .executing } else none
  | .commit => if s.phase = .executing then some s.commit else none
  | .remote_insert_response key_offset moved =>
    if s.phase = .syncing then s.insertResponse key_offset moved else none
  | .finish_commit commit_tid cur_global_epoch =>
    if s.phase = .syncing ∧ s.pending = [] then
      some (s.finishCommit commit_tid cur_global_epoch)
    else none
  | .abort => if s.phase = .executing then some s.abort else none
  | .release =>
    match s.phase with
    | .releasing calls => some (s.releaseStep calls)
    | _ => none
  | .changeIndex key row => some { s with cxl_index := Function.update s.cxl_index key row }

end TransactionSystem

end Tigon.TwoPLPasha
