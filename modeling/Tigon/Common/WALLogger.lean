import Mathlib.Algebra.BigOperators.Group.List.Basic
import Mathlib.Algebra.GroupWithZero.Nat

namespace Tigon.Common

-- What one call of write is given. A transaction numbers its records, and a commit
-- record is to persist.
structure LogRecord (τ : Type) where
  txn : τ
  index : Nat
  size : Nat
  persist : Bool
deriving DecidableEq

structure LogBuffer (τ : Type) where
  records : List (LogRecord τ)
deriving DecidableEq

def max_buffer_size : Nat := 1024 * 1024 * 4

def max_log_buffer_queue_size : Nat := 128

namespace LogBuffer

variable {τ : Type}

def empty : LogBuffer τ := ⟨[]⟩

def size (b : LogBuffer τ) : Nat := (b.records.map LogRecord.size).sum

def txnCount (b : LogBuffer τ) : Nat := b.records.countP LogRecord.persist

end LogBuffer

structure PashaGroupCommitLoggerSlave (τ : Type) where
  cur_log_buffer : LogBuffer τ
  log_buffer_queue : List (LogBuffer τ)
  last_epoch : Nat
deriving DecidableEq

namespace PashaGroupCommitLoggerSlave

variable {τ : Type}

def start : PashaGroupCommitLoggerSlave τ := ⟨.empty, [], 0⟩

-- A record that is larger than a buffer would be copied past its end.
def append (s : PashaGroupCommitLoggerSlave τ) (r : LogRecord τ) :
    Option (PashaGroupCommitLoggerSlave τ) :=
  if s.cur_log_buffer.size + r.size ≤ max_buffer_size then
    some { s with cur_log_buffer := ⟨s.cur_log_buffer.records ++ [r]⟩ }
  else none

-- push waits for a free slot of the queue.
def push (s : PashaGroupCommitLoggerSlave τ) : Option (PashaGroupCommitLoggerSlave τ) :=
  if s.log_buffer_queue.length < max_log_buffer_queue_size then
    some { s with
      cur_log_buffer := .empty
      log_buffer_queue := s.log_buffer_queue ++ [s.cur_log_buffer] }
  else none

def write (s : PashaGroupCommitLoggerSlave τ) (cur_epoch : Nat) (r : LogRecord τ) :
    Option (PashaGroupCommitLoggerSlave τ) :=
  if max_buffer_size < s.cur_log_buffer.size + r.size ∨ s.last_epoch < cur_epoch then
    if 0 < s.cur_log_buffer.size then
      s.push.bind fun s => { s with last_epoch := cur_epoch }.append r
    else { s with last_epoch := cur_epoch }.append r
  else s.append r

-- All that is written and not yet taken by the logger, in the order of the writes.
def unsynced (s : PashaGroupCommitLoggerSlave τ) : List (LogRecord τ) :=
  s.log_buffer_queue.flatMap LogBuffer.records ++ s.cur_log_buffer.records

variable {s t : PashaGroupCommitLoggerSlave τ}

theorem unsynced_append {r : LogRecord τ} (h : s.append r = some t) :
    t.unsynced = s.unsynced ++ [r] := by
  obtain ⟨-, rfl⟩ := Option.ite_some_none_eq_some.mp h
  simp only [unsynced, List.append_assoc]

theorem unsynced_push (h : s.push = some t) : t.unsynced = s.unsynced := by
  obtain ⟨-, rfl⟩ := Option.ite_some_none_eq_some.mp h
  simp [unsynced, LogBuffer.empty]

theorem unsynced_write {cur_epoch : Nat} {r : LogRecord τ} (h : s.write cur_epoch r = some t) :
    t.unsynced = s.unsynced ++ [r] := by
  rw [write] at h
  split at h
  · split at h
    · obtain ⟨u, hpush, happend⟩ := Option.bind_eq_some_iff.mp h
      have hunsynced := unsynced_append happend
      rw [← unsynced_push hpush]
      exact hunsynced
    · have hunsynced := unsynced_append h
      exact hunsynced
  · exact unsynced_append h

theorem unsynced_cons {b : LogBuffer τ} {rest : List (LogBuffer τ)}
    (h : s.log_buffer_queue = b :: rest) :
    s.unsynced = b.records ++ ({ s with log_buffer_queue := rest } :
      PashaGroupCommitLoggerSlave τ).unsynced := by
  simp only [unsynced, h, List.flatMap_cons, List.append_assoc]

end PashaGroupCommitLoggerSlave

end Tigon.Common
