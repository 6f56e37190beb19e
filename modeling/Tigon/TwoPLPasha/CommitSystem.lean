import Tigon.Library.Transition
import Tigon.TwoPLPasha.Transaction

namespace Tigon.TwoPLPasha

open Tigon.Library

inductive RowLock (W : Type)
  | readers (count : Nat)
  | writer (w : W)
deriving DecidableEq

namespace RowLock

variable {W : Type}

def take (kind : LockKind) (w : W) : RowLock W → Option (RowLock W)
  | readers n =>
    match kind with
    | .read => if n < 31 then some (readers (n + 1)) else none
    | .write => if n = 0 then some (writer w) else none
  | writer _ => none

def give (kind : LockKind) : RowLock W → RowLock W
  | readers n => readers (n - 1)
  | writer w =>
    match kind with
    | .read => writer w
    | .write => readers 0

end RowLock

-- A worker with the transaction it runs and, once that commits or aborts, the calls that
-- are still to be made.
structure Worker (κ ρ : Type) where
  max_tid : Word
  txn : Transaction κ ρ
  pending : List (Call κ ρ)

structure CommitSystem (W κ ρ : Type) where
  version : ρ → Word
  lock : ρ → RowLock W
  epoch : Word
  worker : W → Worker κ ρ

-- Each lock attempt and each release is one label; an attempt that fails changes nothing.
inductive CommitLabel (W κ ρ : Type)
  | point (w : W) (key : κ) (row : ρ) (remote : Bool) (kind : LockKind)
  | insert (w : W) (key : κ) (next : ρ) (require_lock_next_row : Bool)
  | remoteInsert (w : W) (key : κ) (require_lock_next_row : Bool)
  | scan (w : W) (remote : Bool) (type : ScanType)
  | scanRow (w : W) (row : ρ) (locking_next_tuple : Bool)
  | advanceEpoch (epoch : Word)
  | commit (w : W)
  | abort (w : W)
  | release (w : W)
deriving DecidableEq

namespace CommitSystem

variable {W κ ρ : Type} [DecidableEq W] [DecidableEq ρ]

def start : CommitSystem W κ ρ where
  version := fun _ => 0
  lock := fun _ => .readers 0
  epoch := 0
  worker := fun _ => ⟨0, .empty, []⟩

def setWorker (s : CommitSystem W κ ρ) (w : W) (x : Worker κ ρ) : CommitSystem W κ ρ :=
  { s with worker := Function.update s.worker w x }

def setTxn (s : CommitSystem W κ ρ) (w : W) (txn : Transaction κ ρ) : CommitSystem W κ ρ :=
  s.setWorker w { s.worker w with txn := txn }

def setLock (s : CommitSystem W κ ρ) (row : ρ) (lock : RowLock W) : CommitSystem W κ ρ :=
  { s with lock := Function.update s.lock row lock }

def rowPtr (remote : Bool) (row : ρ) : RowPtr ρ := if remote then .cxlRow row else .localRow row

def point (s : CommitSystem W κ ρ) (w : W) (key : κ) (row : ρ) (remote : Bool)
    (kind : LockKind) : CommitSystem W κ ρ :=
  match (s.lock row).take kind w with
  | some lock =>
    let txn := (s.worker w).txn
    (s.setLock row lock).setTxn w { txn with readSet := txn.readSet ++
      [{ key := key
         request := if kind = .write then .search_for_update else .search_for_read
         has_master_partition := !remote
         processed := true
         read_lock_bit := kind == .read
         write_lock_bit := kind == .write
         tid := s.version row
         cached_local_row := if remote then none else some row
         cached_migrated_row := if remote then some row else none
         reference_counted := remote }] }
  | none => s

def addInsert (s : CommitSystem W κ ρ) (w : W) (key : κ) (has_master_partition : Bool)
    (require_lock_next_row : Bool) (next_row_entity : Option (RowPtr ρ)) : CommitSystem W κ ρ :=
  let txn := (s.worker w).txn
  s.setTxn w { txn with insertSet := txn.insertSet ++
    [{ key := key
       has_master_partition := has_master_partition
       read_on_replica := false
       processed := true
       require_lock_next_row := require_lock_next_row
       next_row_entity := next_row_entity
       is_next_row_locked := require_lock_next_row
       inserted_cxl_row := none
       reference_counted := false }] }

def insert (s : CommitSystem W κ ρ) (w : W) (key : κ) (next : ρ)
    (require_lock_next_row : Bool) : CommitSystem W κ ρ :=
  if require_lock_next_row then
    match (s.lock next).take .write w with
    | some lock => (s.setLock next lock).addInsert w key true true (some (.localRow next))
    | none => s
  else s.addInsert w key true false none

def scan (s : CommitSystem W κ ρ) (w : W) (remote : Bool) (type : ScanType) :
    CommitSystem W κ ρ :=
  let txn := (s.worker w).txn
  s.setTxn w { txn with scanSet :=
    { has_master_partition := !remote
      read_on_replica := false
      type := type
      processed := true
      scan_results := []
      next_row_entity := none
      is_next_row_locked := false } :: txn.scanSet }

def scanRow (s : CommitSystem W κ ρ) (w : W) (row : ρ) (locking_next_tuple : Bool) :
    Option (CommitSystem W κ ρ) :=
  match (s.worker w).txn.scanSet with
  | k :: rest =>
    if k.is_next_row_locked then none
    else
      let ptr := rowPtr (!k.has_master_partition) row
      match (s.lock row).take k.type.kind w with
      | some lock =>
        let k := if locking_next_tuple then
            { k with next_row_entity := some ptr, is_next_row_locked := true }
          else { k with scan_results := k.scan_results ++ [ptr] }
        some ((s.setLock row lock).setTxn w { (s.worker w).txn with scanSet := k :: rest })
      | none => some s
  | [] => none

def commit (s : CommitSystem W κ ρ) (w : W) : CommitSystem W κ ρ :=
  let x := s.worker w
  let commit_tid := generate_tid x.max_tid x.txn.readSet
  s.setWorker w ⟨commit_tid, .empty,
    x.txn.release_lock commit_tid s.epoch ++ x.txn.release_migrated_rows⟩

def abort (s : CommitSystem W κ ρ) (w : W) : CommitSystem W κ ρ :=
  let x := s.worker w
  s.setWorker w ⟨x.max_tid, .empty, x.txn.abort⟩

-- A release that installs a version writes it over the whole word; what lock calls
-- return later is that word without its lock bits.
def apply (s : CommitSystem W κ ρ) : Call κ ρ → Option (CommitSystem W κ ρ)
  | .lock_release remote kind (some ptr) new_value =>
    if ptr.fits remote then
      let s := s.setLock ptr.row ((s.lock ptr.row).give kind)
      match new_value with
      | some value =>
        some { s with version := Function.update s.version ptr.row (remove_lock_bit value) }
      | none => some s
    else none
  | .lock_release _ _ none _ => none
  | .release_migrated_row _ | .decrease_reference_count_via_ptr _ | .remove _ => some s

def release (s : CommitSystem W κ ρ) (w : W) : Option (CommitSystem W κ ρ) :=
  match (s.worker w).pending with
  | call :: rest => (s.setWorker w { s.worker w with pending := rest }).apply call
  | [] => none

def step (s : CommitSystem W κ ρ) : CommitLabel W κ ρ → Option (CommitSystem W κ ρ)
  | .point w key row remote kind =>
    if (s.worker w).pending.isEmpty then some (s.point w key row remote kind) else none
  | .insert w key next require_lock_next_row =>
    if (s.worker w).pending.isEmpty then some (s.insert w key next require_lock_next_row)
    else none
  | .remoteInsert w key require_lock_next_row =>
    if (s.worker w).pending.isEmpty then
      some (s.addInsert w key false require_lock_next_row none)
    else none
  | .scan w remote type =>
    if (s.worker w).pending.isEmpty then some (s.scan w remote type) else none
  | .scanRow w row locking_next_tuple =>
    if (s.worker w).pending.isEmpty then s.scanRow w row locking_next_tuple else none
  | .advanceEpoch epoch => if s.epoch ≤ epoch then some { s with epoch := epoch } else none
  | .commit w => if (s.worker w).pending.isEmpty then some (s.commit w) else none
  | .abort w => if (s.worker w).pending.isEmpty then some (s.abort w) else none
  | .release w => s.release w

end CommitSystem

end Tigon.TwoPLPasha
