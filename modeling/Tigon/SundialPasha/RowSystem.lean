import Tigon.Library.Transition
import Tigon.SundialPasha.Row

namespace Tigon.SundialPasha

open Function

open Tigon.Sundial (Row)

def Op.transaction {τ α : Type} : Op τ α → Option τ
  | .read => none
  | .write_lock t => some t
  | .renew_lease _ _ => none
  | .update _ _ t => some t
  | .unlock t => some t

def Op.needsLock {τ α : Type} : Op τ α → Bool
  | .update _ _ _ => true
  | .unlock _ => true
  | _ => false

-- One row under the transactions of all hosts. `found` is what a transaction's search of
-- the CXL index in `get_migrated_row` has returned, `refs` the pointer it holds a reference
-- on, `trace` the calls made so far with their answers, in order.
structure RowSystem (τ α : Type) where
  row : RowState τ α
  found : τ → Option Ptr
  refs : τ → Option Ptr
  trace : List (Op τ α × Answer α)

inductive RowLabel (τ α : Type)
  | localCall (op : Op τ α)
  | remoteCall (t : τ) (op : Op τ α)
  | search (t : τ)
  | get_migrated_row (t : τ)
  | release_migrated_row (t : τ)
  -- a move-in, for a transaction whose host has asked for the row, or for nobody
  | move_in (row : Ptr) (requester : Option τ)
  | move_out
deriving DecidableEq

structure Cluster (τ : Type) where
  scc : SCCManager
  owner : Host
  home : τ → Host

namespace RowSystem

variable {τ α : Type} [DecidableEq τ] (c : Cluster τ)

def start (row : Row τ α) (heap : Ptr → Shared τ α) : RowSystem τ α where
  row := ⟨⟨row, none⟩, heap, none⟩
  found _ := none
  refs _ := none
  trace := []

def record (s : RowSystem τ α) (op : Op τ α) (res : RowState τ α × Answer α) : RowSystem τ α :=
  { s with row := res.1, trace := s.trace ++ [(op, res.2)] }

def moveIn (s : RowSystem τ α) (row : Ptr) (requester : Option τ) :
    Except Check (RowSystem τ α) := do
  let (r, _) ← s.row.move_from_hashmap_to_shared_region c.scc c.owner row requester.isSome
  match requester with
  | none => return { s with row := r }
  | some t => return { s with row := r, refs := update s.refs t r.lmeta.migrated_row }

def attempt (s : RowSystem τ α) : RowLabel τ α → Except Check (RowSystem τ α)
  | .localCall op => do return s.record op (← s.row.localCall c.scc c.owner op)
  | .remoteCall t op =>
    match s.refs t with
    | none => .ok s
    | some p => do return s.record op (← s.row.remoteCall c.scc (c.home t) op p)
  | .search t => .ok { s with found := update s.found t s.row.cxl }
  | .get_migrated_row t =>
    match s.found t with
    | none => .ok s
    | some p =>
      match s.row.get_migrated_row_latched p true with
      | (r, ref) => .ok { s with
          row := r
          found := update s.found t none
          refs := update s.refs t ref }
  | .release_migrated_row t => do
    return { s with
      row := ← s.row.release_migrated_row
      refs := update s.refs t none }
  | .move_in row requester => s.moveIn c row requester
  | .move_out => do
    let (r, _) ← s.row.move_from_hashmap_to_partition c.scc c.owner
    return { s with row := r }

def step (s : RowSystem τ α) (l : RowLabel τ α) : Option (RowSystem τ α) := (s.attempt c l).toOption

def view (s : RowSystem τ α) : Row τ α :=
  match s.row.lmeta.migrated_row with
  | none => s.row.lmeta.toRow
  | some p => { (s.row.heap p).toRow with is_valid := s.row.lmeta.is_valid }

-- How the callers behave: update and unlock under the own lock, a remote call with a
-- reference, one reference at a time, given back by who holds it.
def Disciplined (s : RowSystem τ α) : RowLabel τ α → Prop
  | .localCall op => op.needsLock = true → s.view.owner = op.transaction
  | .remoteCall t op => (s.refs t).isSome ∧ (op.needsLock = true → s.view.owner = op.transaction)
  | .get_migrated_row t => s.refs t = none
  | .release_migrated_row t => (s.refs t).isSome
  | .move_in _ requester => ∀ t, requester = some t → s.refs t = none
  | _ => True

instance (s : RowSystem τ α) (l : RowLabel τ α) : Decidable (s.Disciplined l) := by
  cases l <;> unfold Disciplined <;> infer_instance

end RowSystem

-- A run of a single Sundial row that does not migrate, call by call with the answers.
inductive Runs {τ α : Type} [DecidableEq τ] (r : Row τ α) :
    List (Op τ α × Answer α) → Row τ α → Prop
  | nil : Runs r [] r
  | snoc {trace : List (Op τ α × Answer α)} {r' r'' : Row τ α} {op : Op τ α} {answer : Answer α}
      (h : Runs r trace r') (hcall : call op r' = .ok (r'', answer)) :
      Runs r (trace ++ [(op, answer)]) r''

end Tigon.SundialPasha
