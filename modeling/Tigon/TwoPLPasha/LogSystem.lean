import Tigon.TwoPLPasha.CommitSystem
import Tigon.TwoPLPasha.RedoLog
import Tigon.TwoPLPasha.Transaction.Calls

namespace Tigon.TwoPLPasha

open Function Tigon.Library

-- The redo record of an update, with the number of the write lock that search_for_update
-- took of its row for the same transaction, and the calls that end the transaction.
structure LoggedUpdate (κ ρ α : Type) where
  lock : Option Nat
  record : RedoRecord ρ α
  calls : List (Call κ ρ)

-- The commits of `CommitSystem` with the write sets and what is logged for them. The
-- write locks that search_for_update takes of a row are counted.
structure LogSystem (W κ ρ α : Type) where
  base : CommitSystem W κ ρ
  writeSet : W → List (LoggedKey ρ α)
  acquired : ρ → Nat
  log : List (LoggedUpdate κ ρ α)

inductive LogLabel (W κ ρ α : Type)
  | txn (e : CommitLabel W κ ρ)
  | update (w : W) (row : ρ) (value : α)
deriving DecidableEq

namespace LogSystem

variable {W κ ρ α : Type} [DecidableEq W] [DecidableEq ρ]

def start : LogSystem W κ ρ α where
  base := .start
  writeSet := fun _ => []
  acquired := fun _ => 0
  log := []

def searched (s : LogSystem W κ ρ α) (w : W) (row : ρ) : Bool :=
  (s.base.worker w).txn.readSet.any fun k =>
    k.write_lock_bit && k.cached_row.any fun ptr => ptr.row == row

def acquire (s : LogSystem W κ ρ α) (w : W) (row : ρ) (kind : LockKind) : ρ → Nat :=
  if kind = .write ∧ ((s.base.lock row).take kind w).isSome then
    update s.acquired row (s.acquired row + 1)
  else s.acquired

def write_redo_logs_for_commit (s : LogSystem W κ ρ α) (w : W) : List (LoggedUpdate κ ρ α) :=
  (s.writeSet w).map fun k =>
    { lock := if s.searched w k.row then some (s.acquired k.row) else none
      record := k.redo .update s.base.epoch
      calls := ((s.base.commit w).worker w).pending }

-- `update` puts an entry into the write set and leaves its tid at 0.
def step (s : LogSystem W κ ρ α) : LogLabel W κ ρ α → Option (LogSystem W κ ρ α)
  | .update w row value =>
    if (s.base.worker w).pending.isEmpty then
      some { s with writeSet := update s.writeSet w (s.writeSet w ++ [⟨row, value, 0⟩]) }
    else none
  | .txn e =>
    (s.base.step e).map fun base =>
      match e with
      | .point w _ row _ kind => { s with base := base, acquired := s.acquire w row kind }
      | .commit w =>
        { s with
          base := base
          writeSet := update s.writeSet w []
          log := s.log ++ s.write_redo_logs_for_commit w }
      | .abort w => { s with base := base, writeSet := update s.writeSet w [] }
      | _ => { s with base := base }

end LogSystem

end Tigon.TwoPLPasha
