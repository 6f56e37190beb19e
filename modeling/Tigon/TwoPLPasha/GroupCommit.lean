import Tigon.Common.WALLogger
import Tigon.TwoPLPasha.CommitSystem

namespace Tigon.TwoPLPasha

open Function

open Tigon.Common Tigon.Library

inductive CommitPhase (ρ : Type)
  | running
  | logging (txn : Nat) (written : List ρ)
  | releasing
deriving DecidableEq

-- A transaction is named by its worker and its number there. `reads` are the writers of
-- the rows it has locked so far, `toLog` the records it is still to write, `cur_epoch` what
-- write has loaded for the next of them.
structure GroupWorker (W ρ : Type) where
  next : Nat
  phase : CommitPhase ρ
  reads : List (W × Nat)
  locks : List (ρ × LockKind)
  toLog : List (LogRecord (W × Nat))
  cur_epoch : Option Nat

-- `remaining` are the queues that do_sync has not emptied yet, `disk` what it has written
-- and synced. Of every transaction that reaches its commit, `readsFrom` are the writers of
-- the rows it read and `records` what it logs.
structure GroupCommit (W ρ : Type) where
  cxl_global_epoch : Nat
  lock : ρ → RowLock W
  writer : ρ → Option (W × Nat)
  worker : W → GroupWorker W ρ
  slave : W → PashaGroupCommitLoggerSlave (W × Nat)
  remaining : List W
  disk : List (LogRecord (W × Nat))
  committed_txn_cnt : Nat
  readsFrom : W × Nat → List (W × Nat)
  records : W × Nat → List (LogRecord (W × Nat))

inductive GroupLabel (W ρ : Type)
  | lock (w : W) (row : ρ) (kind : LockKind)
  | commit (w : W) (redo : List Nat) (commit_size : Nat) (written : List ρ)
  | loadEpoch (w : W)
  | write (w : W)
  | apply (w : W)
  | abort (w : W)
  | release (w : W)
  | start
  | do_sync
deriving DecidableEq

-- One redo record for each entry of the write, insert and delete sets, by its size, and
-- the commit record unless there is none.
def commitRecords {τ : Type} (txn : τ) (redo : List Nat) (commit_size : Nat) :
    List (LogRecord τ) :=
  redo.mapIdx (fun i size => ⟨txn, i, size, false⟩) ++
    (if redo.isEmpty then [] else [⟨txn, redo.length, commit_size, true⟩])

namespace GroupCommit

variable {W ρ : Type} [DecidableEq W] [DecidableEq ρ]

def start : GroupCommit W ρ where
  cxl_global_epoch := 0
  lock := fun _ => .readers 0
  writer := fun _ => none
  worker := fun _ => ⟨0, .running, [], [], [], none⟩
  slave := fun _ => .start
  remaining := []
  disk := []
  committed_txn_cnt := 0
  readsFrom := fun _ => []
  records := fun _ => []

def setWorker (s : GroupCommit W ρ) (w : W) (x : GroupWorker W ρ) : GroupCommit W ρ :=
  { s with worker := update s.worker w x }

def lockRow (s : GroupCommit W ρ) (w : W) (row : ρ) (kind : LockKind) : GroupCommit W ρ :=
  match (s.lock row).take kind w with
  | some lock =>
    let x := s.worker w
    { s with lock := update s.lock row lock }.setWorker w
      { x with reads := x.reads ++ (s.writer row).toList, locks := x.locks ++ [(row, kind)] }
  | none => s

def commit (s : GroupCommit W ρ) (w : W) (redo : List Nat) (commit_size : Nat)
    (written : List ρ) : GroupCommit W ρ :=
  let x := s.worker w
  let txn := (w, x.next)
  { s with
    readsFrom := update s.readsFrom txn x.reads
    records := update s.records txn (commitRecords txn redo commit_size) }.setWorker w
    { x with
      next := x.next + 1
      phase := .logging x.next written
      toLog := commitRecords txn redo commit_size }

def write (s : GroupCommit W ρ) (w : W) : Option (GroupCommit W ρ) :=
  let x := s.worker w
  match x.toLog, x.cur_epoch with
  | r :: rest, some cur_epoch =>
    ((s.slave w).write cur_epoch r).map fun slave =>
      { s with slave := update s.slave w slave }.setWorker w
        { x with toLog := rest, cur_epoch := none }
  | _, _ => none

def apply (s : GroupCommit W ρ) (w : W) : Option (GroupCommit W ρ) :=
  let x := s.worker w
  match x.phase, x.toLog with
  | .logging txn written, [] =>
    some ({ s with writer := fun row => if row ∈ written then some (w, txn) else s.writer row
      }.setWorker w { x with phase := .releasing })
  | _, _ => none

def release (s : GroupCommit W ρ) (w : W) : Option (GroupCommit W ρ) :=
  let x := s.worker w
  if x.phase = .releasing then
    match x.locks with
    | (row, kind) :: rest =>
      some ({ s with lock := update s.lock row ((s.lock row).give kind) }.setWorker w
        { x with locks := rest })
    | [] => some (s.setWorker w { x with phase := .running, reads := [] })
  else none

-- One turn of the loops of do_sync: a buffer is written and synced, or the queue is empty
-- and the next one comes.
def do_sync (s : GroupCommit W ρ) : Option (GroupCommit W ρ) :=
  match s.remaining with
  | w :: rest =>
    match (s.slave w).log_buffer_queue with
    | b :: queue =>
      some { s with
        slave := update s.slave w { s.slave w with log_buffer_queue := queue }
        disk := s.disk ++ b.records
        committed_txn_cnt := s.committed_txn_cnt + b.txnCount }
    | [] => some { s with remaining := rest }
  | [] => none

def step (log_buffer_queues : List W) (s : GroupCommit W ρ) :
    GroupLabel W ρ → Option (GroupCommit W ρ)
  | .lock w row kind =>
    if (s.worker w).phase = .running then some (s.lockRow w row kind) else none
  | .commit w redo commit_size written =>
    if (s.worker w).phase = .running ∧ ∀ row ∈ written, (row, .write) ∈ (s.worker w).locks then
      some (s.commit w redo commit_size written)
    else none
  | .loadEpoch w =>
    if (s.worker w).toLog ≠ [] ∧ (s.worker w).cur_epoch = none then
      some (s.setWorker w { s.worker w with cur_epoch := some s.cxl_global_epoch })
    else none
  | .write w => s.write w
  | .apply w => s.apply w
  | .abort w =>
    if (s.worker w).phase = .running then
      some (s.setWorker w { s.worker w with phase := .releasing })
    else none
  | .release w => s.release w
  | .start =>
    if s.remaining = [] then
      some { s with
        cxl_global_epoch := s.cxl_global_epoch + 1
        remaining := log_buffer_queues }
    else none
  | .do_sync => s.do_sync

end GroupCommit

end Tigon.TwoPLPasha
