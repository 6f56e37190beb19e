import Tigon.Library.Transition
import Tigon.Library.TwoPhaseLocking
import Tigon.TwoPL.Transaction

namespace Tigon.TwoPL

open Tigon.Library Tigon.Protocol.LockWord

-- The rows of all coordinators and the transactions with their messages. `committed` lists
-- the transactions whose commit has got past "all locks are acquired", and `history` the
-- accesses to the rows, both in the order of the run.
structure System (τ ω κ α : Type) where
  rows : κ → Row α
  txns : τ → Transaction κ α
  max_tid : ω → Word
  committed : List τ
  history : List (Schedule.Access τ κ α)

inductive Call (κ α : Type)
  | search_for_read (key : κ)
  | search_for_update (key : κ)
  | update (key : κ) (value : α)
  | assign (i : Nat) (value : α)
  | process_requests
  | commit
  | abort
deriving DecidableEq

inductive Label (τ κ α : Type)
  | call (t : τ) (call : Call κ α)
  | run (t : τ)
  | deliver (t : τ) (n : Nat)
deriving DecidableEq

def Label.txn {τ κ α : Type} : Label τ κ α → τ
  | .call t _ => t
  | .run t => t
  | .deliver t _ => t

def lockAndRead {α : Type} : LockKind → Row α → Option (α × Word × Row α)
  | .read, row => row.take_read_lock_and_read
  | .write, row => row.take_write_lock_and_read

def lockRow {α : Type} : LockKind → Row α → Option (Word × Row α)
  | .read, row => row.read_lock
  | .write, row => row.write_lock

def releaseRow {α : Type} : Option Word → LockKind → Row α → Option (Row α)
  | _, .read, row => row.read_lock_release
  | none, .write, row => row.write_lock_release
  | some commit_tid, .write, row => row.write_lock_release_with commit_tid

def releaseMessage {κ α : Type} : Option Word → LockKind → κ → Nat → TwoPLMessage κ α
  | none, kind, key, i => .ABORT_REQUEST key kind i
  | some _, .read, key, i => .RELEASE_READ_LOCK_REQUEST key i
  | some commit_tid, .write, key, i => .RELEASE_WRITE_LOCK_REQUEST key commit_tid i

namespace System

variable {τ ω κ α : Type} [DecidableEq τ] [DecidableEq ω] [DecidableEq κ]

section

variable (s : System τ ω κ α)

omit [DecidableEq ω] [DecidableEq κ] in
def setTxn (t : τ) (x : Transaction κ α) : System τ ω κ α :=
  { s with txns := Function.update s.txns t x }

omit [DecidableEq τ] [DecidableEq ω] in
def setRow (k : κ) (row : Row α) : System τ ω κ α :=
  { s with rows := Function.update s.rows k row }

omit [DecidableEq τ] [DecidableEq ω] [DecidableEq κ] in
def record (t : τ) (k : κ) (kind : LockKind) (value : α) : System τ ω κ α :=
  { s with history := s.history ++ [⟨t, k, kind, value⟩] }

end

variable (c : Cluster τ ω κ) (s : System τ ω κ α) (t : τ)

-- Updates are of rows that search_for_update has asked for, and a transaction that wants to
-- commit has made its requests.
def call (x : Transaction κ α) : Call κ α → Option (Transaction κ α)
  | .search_for_read key => some (x.search_for_read key)
  | .search_for_update key => some (x.search_for_update key)
  | .update key value =>
    if x.readSet.any fun r => decide (r.key = key) && r.lock_request == .write then
      some (x.update key value)
    else none
  | .assign i value => some (x.assign i value)
  | .process_requests => some (x.goto (.requests x.unprocessed))
  | .commit =>
    if x.abort_lock then some (x.goto (.aborting x.lockBits))
    else if x.isReady then
      some ((x.prepares c t).foldl (fun y _ => y.awaits .PREPARE_REQUEST) (x.goto .preparing))
    else none
  | .abort => some (x.goto (.aborting x.lockBits))

def request (x : Transaction κ α) (i : Nat) (r : ReadKey κ α) (todo : List Nat) :
    System τ ω κ α :=
  if c.has_master_partition t r.key then
    match lockAndRead r.lock_request (s.rows r.key) with
    | some (value, tid, row) =>
      ((s.setRow r.key row).record t r.key .read value).setTxn t
        ((x.setKey i (r.receive r.lock_request value tid).set_processed).goto (.requests todo))
    | none => s.setTxn t { x.goto (.requests []) with abort_lock := true }
  else
    s.setTxn t (((x.setKey i r.set_processed).awaits
      (.LOCK_REQUEST r.lock_request r.key i)).goto (.requests todo))

def write (x : Transaction κ α) (commit_tid : Word) (w : κ × α) (todo : List (κ × α)) :
    System τ ω κ α :=
  if c.has_master_partition t w.1 then
    ((s.setRow w.1 ((s.rows w.1).update w.2)).record t w.1 .write w.2).setTxn t
      (x.goto (.writing commit_tid todo))
  else
    s.setTxn t ((x.awaits (.WRITE_REQUEST w.1 w.2 commit_tid)).goto (.writing commit_tid todo))

def release (x : Transaction κ α) (commit_tid : Option Word) (i : Nat) (kind : LockKind)
    (r : ReadKey κ α) (stage : Stage κ α) : Option (System τ ω κ α) :=
  if c.has_master_partition t r.key then
    (releaseRow commit_tid kind (s.rows r.key)).map fun row =>
      (s.setRow r.key row).setTxn t (x.goto stage)
  else some (s.setTxn t ((x.sends (releaseMessage commit_tid kind r.key i)).goto stage))

def runStep (x : Transaction κ α) : Option (System τ ω κ α) :=
  match x.stage with
  | .executing => none
  | .requests [] =>
    if x.pendingResponses = 0 then some (s.setTxn t (x.goto .executing)) else none
  | .requests (i :: todo) => (x.readSet[i]?).map fun r => s.request c t x i r todo
  | .preparing =>
    if x.pendingResponses = 0 then
      let commit_tid := x.generate_tid (s.max_tid (c.worker_id t))
      some { s.setTxn t (x.goto (.writing commit_tid x.writeSet)) with
        max_tid := Function.update s.max_tid (c.worker_id t) commit_tid
        committed := s.committed ++ [t] }
    else none
  | .writing commit_tid (w :: todo) => some (s.write c t x commit_tid w todo)
  | .writing commit_tid [] =>
    if x.pendingResponses = 0 then
      some (s.setTxn t (x.goto (.releasing commit_tid x.lockBits)))
    else none
  | .releasing commit_tid ((i, kind) :: todo) =>
    (x.readSet[i]?).bind fun r =>
      s.release c t x (some commit_tid) i kind r (.releasing commit_tid todo)
  | .aborting ((i, kind) :: todo) =>
    (x.readSet[i]?).bind fun r => s.release c t x none i kind r (.aborting todo)
  | .releasing _ [] => none
  | .aborting [] => none

def handle (x : Transaction κ α) : TwoPLMessage κ α → Option (System τ ω κ α)
  | .LOCK_REQUEST kind key key_offset =>
    match lockRow kind (s.rows key) with
    | some (tid, row) => row.read.map fun value =>
      ((s.setRow key row).record t key .read value).setTxn t
        (x.sends (.LOCK_RESPONSE kind key_offset (some (value, tid))))
    | none => some (s.setTxn t (x.sends (.LOCK_RESPONSE kind key_offset none)))
  | .LOCK_RESPONSE kind key_offset result =>
    some (s.setTxn t (x.lock_response_handler kind key_offset result))
  | .ABORT_REQUEST key kind _ =>
    (releaseRow none kind (s.rows key)).map fun row => (s.setRow key row).setTxn t x
  | .PREPARE_REQUEST => some (s.setTxn t (x.sends .PREPARE_RESPONSE))
  | .PREPARE_RESPONSE => some (s.setTxn t x.responded)
  | .WRITE_REQUEST key value _ =>
    some (((s.setRow key ((s.rows key).update value)).record t key .write value).setTxn t
      (x.sends .WRITE_RESPONSE))
  | .WRITE_RESPONSE => some (s.setTxn t x.responded)
  | .RELEASE_READ_LOCK_REQUEST key _ =>
    (s.rows key).read_lock_release.map fun row => (s.setRow key row).setTxn t x
  | .RELEASE_WRITE_LOCK_REQUEST key commit_tid _ =>
    ((s.rows key).write_lock_release_with commit_tid).map fun row =>
      (s.setRow key row).setTxn t x

def step : Label τ κ α → Option (System τ ω κ α)
  | .call t call =>
    if (s.txns t).stage matches .executing then
      (System.call c t (s.txns t) call).map (s.setTxn t)
    else none
  | .run t => s.runStep c t (s.txns t)
  | .deliver t n =>
    ((s.txns t).messages[n]?).bind fun m => s.handle t ((s.txns t).takes n) m

structure Starts (s : System τ ω κ α) : Prop where
  txns : ∀ t, s.txns t = Transaction.init
  committed : s.committed = []
  history : s.history = []

end System

end Tigon.TwoPL
