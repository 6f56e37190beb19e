import Mathlib.Logic.Function.Basic
import Tigon.Sundial.Row

namespace Tigon.SundialPasha

open Function

open Tigon.Sundial (Row)

abbrev Host := Nat

abbrev Ptr := Nat

-- The CHECK that ends the process.
inductive Check
  | is_valid
  | ref_cnt
  | owner
  | scc_meta
  | cxl_index
  | is_migrated
deriving DecidableEq

-- The five calls a transaction makes on a row, wherever the row is.
inductive Op (τ α : Type)
  | read
  | write_lock (transaction_id : τ)
  | renew_lease (wts commit_ts : Nat)
  | update (value : α) (commit_ts : Nat) (transaction_id : τ)
  | unlock (transaction_id : τ)
deriving DecidableEq

def Op.isRead {τ α : Type} : Op τ α → Bool
  | .read => true
  | _ => false

inductive Answer (α : Type)
  | read (rwts : Nat × Nat) (dest : α)
  | lock (success : Bool) (rwts : Nat × Nat)
  | renew (success : Bool)
  | done
deriving DecidableEq

-- SundialPasha's code for metadata that it has latched is Sundial's.
def call {τ α : Type} [DecidableEq τ] (op : Op τ α) (r : Row τ α) :
    Except Check (Row τ α × Answer α) :=
  match op with
  | .read => .ok (r, .read r.read.1 r.read.2)
  | .write_lock transaction_id =>
    match r.write_lock transaction_id with
    | (r, success, rwts) => .ok (r, .lock success rwts)
  | .renew_lease wts commit_ts =>
    match r.renew_lease wts commit_ts with
    | (r, success) => .ok (r, .renew success)
  | .update value commit_ts transaction_id =>
    if r.is_valid = false then .error .is_valid
    else match r.update value commit_ts transaction_id with
      | some r => .ok (r, .done)
      | none => .error .owner
  | .unlock transaction_id =>
    if r.is_valid = false then .error .is_valid
    else match r.unlock transaction_id with
      | some r => .ok (r, .done)
      | none => .error .owner

section

variable {τ α : Type} [DecidableEq τ] {r r' : Row τ α} {answer : Answer α}

theorem call_write_lock (t : τ) (r : Row τ α) :
    call (.write_lock t) r
      = .ok ((r.write_lock t).1, .lock (r.write_lock t).2.1 (r.write_lock t).2.2) := rfl

theorem call_renew_lease (wts commit_ts : Nat) (r : Row τ α) :
    call (.renew_lease wts commit_ts) r
      = .ok ((r.renew_lease wts commit_ts).1, .renew (r.renew_lease wts commit_ts).2) := rfl

theorem call_update_eq_ok {value : α} {commit_ts : Nat} {t : τ}
    (h : call (.update value commit_ts t) r = .ok (r', answer)) :
    r.owner = some t ∧ r' = { r with data := value, wts := commit_ts, rts := commit_ts } := by
  simp only [call] at h
  split at h
  · cases h
  · split at h
    · rename_i hrow
      cases h
      exact (Row.update_eq_some hrow).2
    · cases h

theorem call_unlock_eq_ok {t : τ} (h : call (.unlock t) r = .ok (r', answer)) :
    r.owner = some t ∧ r' = { r with owner := none } := by
  simp only [call] at h
  split at h
  · cases h
  · split at h
    · rename_i hrow
      cases h
      exact (Row.unlock_eq_some hrow).2
    · cases h

end

inductive SCCManager
  | NoOP
  | NonTemporal
  | WriteThrough
deriving DecidableEq

abbrev Bitmap := Host → Bool

namespace SCCManager

def init_scc_metadata : SCCManager → Host → Except Check Bitmap
  | .WriteThrough, host => if host < 16 then .ok fun h => h = host else .error .scc_meta
  | _, _ => .ok fun _ => false

def do_read : SCCManager → Host → Bitmap → Except Check Bitmap
  | .WriteThrough, host, bits =>
    if host < 16 then .ok (update bits host true) else .error .scc_meta
  | _, _, bits => .ok bits

def do_write : SCCManager → Host → Bitmap → Except Check Bitmap
  | .WriteThrough, host, bits =>
    if host < 16 ∧ bits host = true then .ok fun h => h = host else .error .scc_meta
  | _, _, bits => .ok bits

end SCCManager

def Op.scc {τ α : Type} (scc : SCCManager) (host : Host) (op : Op τ α) (bits : Bitmap) :
    Except Check Bitmap :=
  match op with
  | .read => scc.do_read host bits
  | .update _ _ _ => scc.do_write host bits
  | _ => .ok bits

-- SundialPashaMetadataLocal with the local payload; a migrated row is one with a pointer.
structure Local (τ α : Type) extends Row τ α where
  migrated_row : Option Ptr
deriving DecidableEq

structure Shared (τ α : Type) extends Row τ α where
  ref_cnt : Nat
  scc_meta : Bitmap

section Calls

variable {τ α : Type} [DecidableEq τ] (scc : SCCManager) (host : Host)

def Shared.call (remote : Bool) (op : Op τ α) (m : Shared τ α) :
    Except Check (Shared τ α × Answer α) :=
  if m.is_valid = false then .error .is_valid
  else if remote = true ∧ m.ref_cnt = 0 then .error .ref_cnt
  else do
    let (row, answer) ← SundialPasha.call op m.toRow
    let scc_meta ← op.scc scc host m.scc_meta
    return (⟨row, m.ref_cnt, scc_meta⟩, answer)

-- A call of the owner. All but `read` look at the local metadata's is_valid first.
def Local.call (op : Op τ α) (l : Local τ α) (heap : Ptr → Shared τ α) :
    Except Check (Local τ α × (Ptr → Shared τ α) × Answer α) :=
  match l.migrated_row with
  | none => do
    let (row, answer) ← SundialPasha.call op l.toRow
    return (⟨row, none⟩, heap, answer)
  | some p =>
    if op.isRead = false ∧ l.is_valid = false then do
      let (row, answer) ← SundialPasha.call op l.toRow
      return (⟨row, some p⟩, heap, answer)
    else do
      let (m, answer) ← (heap p).call scc host false op
      return (l, update heap p m, answer)

end Calls

inductive migration_result
  | SUCCESS
  | FAIL_OOM
  | FAIL_ALREADY_IN_CXL
deriving DecidableEq

-- One logical row: the owner's local row, the CXL memory and the row's entry in the CXL
-- index.
structure RowState (τ α : Type) where
  lmeta : Local τ α
  heap : Ptr → Shared τ α
  cxl : Option Ptr

namespace RowState

variable {τ α : Type} (scc : SCCManager) (host : Host)

-- The section of `get_migrated_row` behind its search of the CXL index.
def get_migrated_row_latched (row : Ptr) (inc_ref_cnt : Bool) (r : RowState τ α) :
    RowState τ α × Option Ptr :=
  let m := r.heap row
  if m.is_valid = true then
    if inc_ref_cnt then
      ({ r with heap := update r.heap row { m with ref_cnt := m.ref_cnt + 1 } }, some row)
    else (r, some row)
  else (r, none)

def release_migrated_row (r : RowState τ α) : Except Check (RowState τ α) :=
  match r.cxl with
  | none => .error .cxl_index
  | some row =>
    let m := r.heap row
    if m.is_valid = false then .error .is_valid
    else if m.ref_cnt = 0 then .error .ref_cnt
    else .ok { r with heap := update r.heap row { m with ref_cnt := m.ref_cnt - 1 } }

def move_from_hashmap_to_shared_region (row : Ptr) (inc_ref_cnt : Bool) (r : RowState τ α) :
    Except Check (RowState τ α × migration_result) :=
  if r.lmeta.is_valid = false then .error .is_valid
  else match r.lmeta.migrated_row with
  | none => do
    let bits ← scc.init_scc_metadata host
    let bits ← scc.do_write host bits
    let m : Shared τ α :=
      ⟨{ r.lmeta.toRow with is_valid := true }, if inc_ref_cnt then 1 else 0, bits⟩
    if r.cxl.isSome then .error .cxl_index
    else .ok (⟨{ r.lmeta with migrated_row := some row }, update r.heap row m, some row⟩,
      .SUCCESS)
  | some p =>
    if inc_ref_cnt then
      let m := r.heap p
      if m.is_valid = false then .error .is_valid
      else .ok ({ r with heap := update r.heap p { m with ref_cnt := m.ref_cnt + 1 } },
        .FAIL_ALREADY_IN_CXL)
    else .ok (r, .FAIL_ALREADY_IN_CXL)

def move_from_hashmap_to_partition (r : RowState τ α) : Except Check (RowState τ α × Bool) :=
  if r.lmeta.is_valid = false then .error .is_valid
  else match r.lmeta.migrated_row with
  | none => .error .is_migrated
  | some p =>
    let m := r.heap p
    if m.is_valid = false then .error .is_valid
    else if m.ref_cnt > 0 then .ok (r, false)
    else do
      let bits ← scc.do_read host m.scc_meta
      if r.cxl ≠ some p then .error .cxl_index
      else
        let m' : Shared τ α := { m with is_valid := false, scc_meta := bits }
        .ok (⟨⟨{ m.toRow with is_valid := r.lmeta.is_valid }, none⟩,
          update r.heap p m', none⟩, true)

variable [DecidableEq τ]

def localCall (op : Op τ α) (r : RowState τ α) : Except Check (RowState τ α × Answer α) := do
  let (lmeta, heap, answer) ← r.lmeta.call scc host op r.heap
  return (⟨lmeta, heap, r.cxl⟩, answer)

def remoteCall (op : Op τ α) (row : Ptr) (r : RowState τ α) :
    Except Check (RowState τ α × Answer α) := do
  let (m, answer) ← (r.heap row).call scc host true op
  return ({ r with heap := update r.heap row m }, answer)

end RowState

end Tigon.SundialPasha
