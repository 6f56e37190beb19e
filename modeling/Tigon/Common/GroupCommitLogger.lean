import Mathlib.Data.List.DropRight
import Tigon.Library.Transition

namespace Tigon.Common

-- A call on the file descriptor of the log. Behind its bytes a direct write has padding up
-- to the next block.
inductive FileOp (β : Type)
  | write (bytes : List β) (padding : Nat)
  | fdatasync
deriving DecidableEq

namespace FileOp

variable {β : Type}

def isWrite : FileOp β → Bool
  | write _ _ => true
  | fdatasync => false

def bytes : FileOp β → List β
  | write bytes _ => bytes
  | fdatasync => []

def synced (ops : List (FileOp β)) : List β := (ops.rdropWhile isWrite).flatMap bytes

end FileOp

structure BufferedDirectFileWriter (β : Type) where
  buffer : List β
  file : List (FileOp β)
deriving DecidableEq

namespace BufferedDirectFileWriter

def BUFFER_SIZE : Nat := 1024 * 1024 * 4

structure Config where
  block_size : Nat
  emulated_persist_latency : Nat
  group_commit_txn_cnt : Nat
  block : BUFFER_SIZE % block_size = 0

variable {β : Type} (cfg : Config)

def roundUp (numToRound multiple : Nat) : Nat :=
  if multiple = 0 then numToRound
  else
    let remainder := numToRound % multiple
    if remainder = 0 then numToRound else numToRound + multiple - remainder

def flush (w : BufferedDirectFileWriter β) : Option (BufferedDirectFileWriter β) :=
  let bytes_total := w.buffer.length
  if 0 < bytes_total then
    if cfg.emulated_persist_latency ≠ 0 then
      some ⟨[], w.file ++ [.write w.buffer 0, .fdatasync]⟩
    else
      let io_size := roundUp bytes_total cfg.block_size
      if io_size ≤ BUFFER_SIZE then
        some ⟨[], w.file ++ [.write w.buffer (io_size - bytes_total), .fdatasync]⟩
      else none
  else some w

def sync (w : BufferedDirectFileWriter β) : Option (BufferedDirectFileWriter β) := w.flush cfg

def write (w : BufferedDirectFileWriter β) (str : List β) : Option (BufferedDirectFileWriter β) :=
  let bytes_total := w.buffer.length
  if bytes_total + str.length < BUFFER_SIZE then some { w with buffer := w.buffer ++ str }
  else
    let copy_size := BUFFER_SIZE - bytes_total
    ({ w with buffer := w.buffer ++ str.take copy_size }.flush cfg).bind fun w =>
      if BUFFER_SIZE ≤ (str.drop copy_size).length then none
      else some { w with buffer := str.drop copy_size }

end BufferedDirectFileWriter

inductive LoggerCall (β : Type)
  | idle
  -- in the mutex section, behind writer.write
  | writing (str : List β) (end_lsn : Nat) (persist : Bool)
  | syncing (str : List β) (end_lsn : Nat)
  | polling (str : List β) (end_lsn : Nat)
  | returned (str : List β) (end_lsn : Nat) (persist : Bool)
deriving DecidableEq

-- The background thread; the last two are in the mutex section of do_sync.
inductive LoggerDaemon
  | sleeping
  | awake
  | flushed (flush_lsn waiting_sync_cnt : Nat)
  | storing (flush_lsn : Nat)
deriving DecidableEq

-- `log` is what the calls have written, in their order. The mutex is held by the background
-- thread or by a caller.
structure GroupCommitLogger (T β : Type) where
  writer : BufferedDirectFileWriter β
  write_lsn : Nat
  sync_lsn : Nat
  waiting_syncs : Nat
  mutex : Option (Option T)
  threads : T → LoggerCall β
  daemon : LoggerDaemon
  log : List β

-- `elapsed` is whether group_commit_latency_us have passed since the last sync.
inductive LoggerLabel (T β : Type)
  | write (i : T) (str : List β) (persist : Bool)
  | advance (i : T)
  | enlist (i : T)
  | poll (i : T)
  | check (elapsed : Bool)
  | do_sync (elapsed : Bool)
  | decrease
  | store

namespace GroupCommitLogger

open BufferedDirectFileWriter (BUFFER_SIZE Config)

variable {T β : Type} [DecidableEq T] (cfg : Config)

def start : GroupCommitLogger T β where
  writer := ⟨[], []⟩
  write_lsn := 0
  sync_lsn := 0
  waiting_syncs := 0
  mutex := none
  threads _ := .idle
  daemon := .sleeping
  log := []

def setCall (s : GroupCommitLogger T β) (i : T) (call : LoggerCall β) : GroupCommitLogger T β :=
  { s with threads := Function.update s.threads i call }

def enter (s : GroupCommitLogger T β) (i : T) (str : List β) (persist : Bool) :
    Option (GroupCommitLogger T β) :=
  (s.writer.write cfg str).map fun writer =>
    { s with
      writer := writer
      mutex := some (some i)
      log := s.log ++ str }.setCall i (.writing str (s.write_lsn + str.length) persist)

def write (s : GroupCommitLogger T β) (i : T) (str : List β) (persist : Bool) :
    Option (GroupCommitLogger T β) :=
  if str.length ≤ BUFFER_SIZE ∧ s.mutex = none then
    match s.threads i with
    | .idle | .returned _ _ _ => s.enter cfg i str persist
    | _ => none
  else none

def advance (s : GroupCommitLogger T β) (i : T) : Option (GroupCommitLogger T β) :=
  match s.threads i with
  | .writing str end_lsn persist =>
    some ({ s with write_lsn := s.write_lsn + str.length, mutex := none }.setCall i
      (if persist then .syncing str end_lsn else .returned str end_lsn false))
  | _ => none

def enlist (s : GroupCommitLogger T β) (i : T) : Option (GroupCommitLogger T β) :=
  match s.threads i with
  | .syncing str end_lsn =>
    some ({ s with waiting_syncs := s.waiting_syncs + 1 }.setCall i (.polling str end_lsn))
  | _ => none

def poll (s : GroupCommitLogger T β) (i : T) : Option (GroupCommitLogger T β) :=
  match s.threads i with
  | .polling str end_lsn =>
    if s.sync_lsn < end_lsn then some s else some (s.setCall i (.returned str end_lsn true))
  | _ => none

def due (s : GroupCommitLogger T β) (elapsed : Bool) : Bool :=
  decide (cfg.group_commit_txn_cnt ≤ s.waiting_syncs) || elapsed

def check (s : GroupCommitLogger T β) (elapsed : Bool) : Option (GroupCommitLogger T β) :=
  match s.daemon with
  | .sleeping => some (if s.due cfg elapsed then { s with daemon := .awake } else s)
  | _ => none

def flushAll (s : GroupCommitLogger T β) : Option (GroupCommitLogger T β) :=
  if s.sync_lsn < s.write_lsn then
    (s.writer.sync cfg).map fun writer => { s with writer := writer }
  else some s

def do_sync (s : GroupCommitLogger T β) (elapsed : Bool) : Option (GroupCommitLogger T β) :=
  if s.daemon = .awake ∧ s.mutex = none then
    if s.due cfg elapsed then
      (s.flushAll cfg).map fun s' => { s' with
        mutex := some none
        daemon := .flushed s.write_lsn s.waiting_syncs }
    else some { s with daemon := .sleeping }
  else none

def decrease (s : GroupCommitLogger T β) : Option (GroupCommitLogger T β) :=
  match s.daemon with
  | .flushed flush_lsn waiting_sync_cnt =>
    some { s with
      waiting_syncs := s.waiting_syncs - waiting_sync_cnt
      daemon := .storing flush_lsn }
  | _ => none

def store (s : GroupCommitLogger T β) : Option (GroupCommitLogger T β) :=
  match s.daemon with
  | .storing flush_lsn =>
    some { s with sync_lsn := flush_lsn, mutex := none, daemon := .sleeping }
  | _ => none

def step (s : GroupCommitLogger T β) : LoggerLabel T β → Option (GroupCommitLogger T β)
  | .write i str persist => s.write cfg i str persist
  | .advance i => s.advance i
  | .enlist i => s.enlist i
  | .poll i => s.poll i
  | .check elapsed => s.check cfg elapsed
  | .do_sync elapsed => s.do_sync cfg elapsed
  | .decrease => s.decrease
  | .store => s.store

end GroupCommitLogger

end Tigon.Common
