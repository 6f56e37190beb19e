import Tigon.Library.Transition
import Tigon.TwoPLPasha.Migration

namespace Tigon.TwoPLPasha

open Tigon.Library

-- The hosts of the lock requests on one row, and the host that owns the row.
structure Config (C : Type) where
  ctx : Context
  owner : Host
  host : C → Host

inductive Lookup
  | point (inc_ref_cnt : Bool)
  | scan
deriving DecidableEq

-- One lock request on the row. `via` is the pointer the lock was taken through,
-- none standing for the owner's local row; `written` is an update that has not been
-- released yet.
inductive Access (α : Type)
  | idle
  | searched (row : Ptr) (how : Lookup)
  | pointed (row : Ptr) (referenced : Bool)
  | holding (kind : LockKind) (via : Option Ptr) (written : Option α)
  | referenced (row : Ptr)
  | releasing (row : Ptr)
  | inserted (row : Ptr)
deriving DecidableEq

namespace Access

variable {α : Type}

def held : Access α → Option LockKind
  | holding kind _ _ => some kind
  | _ => none

def target : Access α → Option Ptr
  | searched row .scan => some row
  | pointed row _ => some row
  | _ => none

def pointer : Access α → Option Ptr
  | idle => none
  | searched row _ | pointed row _ | referenced row | releasing row | inserted row => some row
  | holding _ via _ => via

def afterLock : Option Ptr → Access α
  | none => idle
  | some row => referenced row

end Access

inductive Life
  | inserting (remote : Bool)
  | committed
deriving DecidableEq

-- One row and everybody who works on it. `payload` and `version` record what the
-- committed updates and releases of the write lock installed last.
structure RowSystem (α C : Type) where
  life : Life
  row : RowState α
  access : C → Access α
  allocated : List Ptr
  payload : α
  version : Word

-- Every latched section and every search of the CXL index is one label.
inductive RowLabel (α C : Type)
  | localLock (c : C) (kind : LockKind) (copy : Bool)
  | search (c : C) (how : Lookup)
  | getMigratedRow (c : C)
  | remoteLock (c : C) (kind : LockKind)
  | update (c : C) (value : α)
  | release (c : C)
  | releaseVersion (c : C) (new_value : Word)
  | searchReferenced (c : C)
  | dereference (c : C)
  | moveIn (alloc : Allocation α) (inc_ref_cnt : Bool)
  | moveOut
  | commitInsert
  | searchInserted (c : C)
  | commitRemoteInsert (c : C)
deriving DecidableEq

def RowLabel.latched {α C : Type} : RowLabel α C → Option C
  | .getMigratedRow c | .remoteLock c _ | .update c _ | .release c | .releaseVersion c _
  | .dereference c | .commitRemoteInsert c => some c
  | _ => none

namespace RowSystem

variable {α C : Type} [DecidableEq C]

def start (smeta : Ptr → TwoPLPashaMetadataShared) (scc : Word → TwoPLPashaSharedDataSCC α)
    (value : α) (life : Life) : RowSystem α C where
  life := life
  row := RowState.init smeta scc value (life == .committed)
  access := fun _ => .idle
  allocated := []
  payload := value
  version := 0

def setAccess (s : RowSystem α C) (c : C) (a : Access α) : RowSystem α C :=
  { s with access := Function.update s.access c a }

def localLock (cfg : Config C) (s : RowSystem α C) (c : C) (kind : LockKind) (copy : Bool) :
    Option (RowSystem α C) :=
  if cfg.host c = cfg.owner then
    match s.access c with
    | .idle =>
      let res := RowState.localLock kind copy s.row cfg.owner
      some ({ s with row := res.row }.setAccess c
        (if res.success then .holding kind none none else .idle))
    | _ => none
  else none

-- A point request that finds nothing asks the owner to move the row in and starts over.
def search (cfg : Config C) (s : RowSystem α C) (c : C) (how : Lookup) :
    Option (RowSystem α C) :=
  if cfg.host c = cfg.owner then none
  else
    match s.access c, s.row.cxl with
    | .idle, some row => some (s.setAccess c (.searched row how))
    | .idle, none => some s
    | _, _ => none

def getMigratedRow (s : RowSystem α C) (c : C) : Option (RowSystem α C) :=
  match s.access c with
  | .searched row (.point inc_ref_cnt) =>
    let res := s.row.get_migrated_row_latched row inc_ref_cnt
    some ({ s with row := res.1 }.setAccess c
      (if res.2.isSome then .pointed row inc_ref_cnt else .idle))
  | _ => none

-- A point request takes its reference either in get_migrated_row or with the lock.
def remoteLock (cfg : Config C) (s : RowSystem α C) (c : C) (kind : LockKind) :
    Option (RowSystem α C) :=
  match s.access c with
  | .pointed row referenced =>
    let res := RowState.remoteLock kind true (!referenced) s.row (cfg.host c) row
    some ({ s with row := res.row }.setAccess c
      (if res.success then .holding kind (some row) none
       else if referenced then .referenced row else .idle))
  | .searched row .scan =>
    let res := RowState.remoteLock kind false true s.row (cfg.host c) row
    some ({ s with row := res.row }.setAccess c
      (if res.success then .holding kind (some row) none else .idle))
  | _ => none

def update (s : RowSystem α C) (c : C) (value : α) : Option (RowSystem α C) :=
  match s.access c with
  | .holding .write via _ =>
    let row := match via with
      | none => s.row.update value
      | some p => s.row.remote_update p value
    some ({ s with row := row }.setAccess c (.holding .write via (some value)))
  | _ => none

-- Abort: a lock whose row was not updated is given back without a version.
def release (s : RowSystem α C) (c : C) : Option (RowSystem α C) :=
  match s.access c with
  | .holding kind via none =>
    let row := match via with
      | none => s.row.lockRelease kind
      | some p => s.row.remoteLockRelease kind p
    some ({ s with row := row }.setAccess c (.afterLock via))
  | _ => none

-- Commit: the write lock is given back with a version, and a pending update is
-- what later reads have to see.
def releaseVersion (cfg : Config C) (s : RowSystem α C) (c : C) (new_value : Word) :
    Option (RowSystem α C) :=
  match s.access c with
  | .holding .write via written =>
    let row := match via with
      | none => s.row.write_lock_release_version cfg.owner new_value
      | some p => s.row.remote_write_lock_release_version (cfg.host c) p new_value
    row.map fun r =>
      { s with
        row := r
        payload := written.getD s.payload
        version := new_value }.setAccess c (.afterLock via)
  | _ => none

-- release_migrated_row looks the row up again by its key; with no entry it runs into
-- the null pointer.
def searchReferenced (s : RowSystem α C) (c : C) : Option (RowSystem α C) :=
  match s.access c with
  | .referenced _ => s.row.cxl.map fun row => s.setAccess c (.releasing row)
  | _ => none

def dereference (s : RowSystem α C) (c : C) : Option (RowSystem α C) :=
  match s.access c with
  | .referenced row | .releasing row =>
    some ({ s with row := s.row.decrease_reference_count_via_ptr row }.setAccess c .idle)
  | _ => none

-- The allocator hands out new blocks: retired ones are kept for those who may still
-- read them, and every offset fits its field.
def admits (s : RowSystem α C) (alloc : Allocation α) : Prop :=
  (∀ p ∈ alloc.smeta, p ≠ 0 ∧ p ∉ s.allocated) ∧ (∀ b ∈ alloc.scc, b.1.toNat < 2 ^ 37)

omit [DecidableEq C] in
instance (s : RowSystem α C) (alloc : Allocation α) : Decidable (s.admits alloc) :=
  inferInstanceAs (Decidable (_ ∧ _))

def moveIn (cfg : Config C) (s : RowSystem α C) (alloc : Allocation α) (inc_ref_cnt : Bool) :
    Option (RowSystem α C) :=
  if s.admits alloc then
    (s.row.move_from_hashmap_to_shared_region cfg.ctx cfg.owner alloc inc_ref_cnt).map fun res =>
      { s with row := res.1, allocated := alloc.smeta.toList ++ s.allocated }
  else none

def moveOut (cfg : Config C) (s : RowSystem α C) : Option (RowSystem α C) :=
  some { s with row := (s.row.move_from_hashmap_to_partition cfg.ctx cfg.owner).1 }

def commitInsert (cfg : Config C) (s : RowSystem α C) : Option (RowSystem α C) :=
  if s.life = .inserting false then
    (s.row.modify_tuple_valid_bit cfg.owner true true).map fun r =>
      { s with row := r, life := .committed }
  else none

def searchInserted (cfg : Config C) (s : RowSystem α C) (c : C) : Option (RowSystem α C) :=
  if cfg.host c = cfg.owner then none
  else
    match s.access c, s.life with
    | .idle, .inserting true => s.row.cxl.map fun row => s.setAccess c (.inserted row)
    | _, _ => none

def commitRemoteInsert (cfg : Config C) (s : RowSystem α C) (c : C) : Option (RowSystem α C) :=
  match s.access c, s.life with
  | .inserted row, .inserting true =>
    (s.row.remote_modify_tuple_valid_bit (cfg.host c) row true true).map fun r =>
      { s with row := r, life := .committed }.setAccess c (.referenced row)
  | _, _ => none

def step (cfg : Config C) (s : RowSystem α C) : RowLabel α C → Option (RowSystem α C)
  | .localLock c kind copy => s.localLock cfg c kind copy
  | .search c how => s.search cfg c how
  | .getMigratedRow c => s.getMigratedRow c
  | .remoteLock c kind => s.remoteLock cfg c kind
  | .update c value => s.update c value
  | .release c => s.release c
  | .releaseVersion c new_value => s.releaseVersion cfg c new_value
  | .searchReferenced c => s.searchReferenced c
  | .dereference c => s.dereference c
  | .moveIn alloc inc_ref_cnt => s.moveIn cfg alloc inc_ref_cnt
  | .moveOut => s.moveOut cfg
  | .commitInsert => s.commitInsert cfg
  | .searchInserted c => s.searchInserted cfg c
  | .commitRemoteInsert c => s.commitRemoteInsert cfg c

def lockCall (cfg : Config C) (s : RowSystem α C) : RowLabel α C → Option (LockResult α)
  | .localLock _ .read false => some (s.row.read_lock cfg.owner)
  | .localLock _ .read true => some (s.row.take_read_lock_and_read cfg.owner)
  | .localLock _ .write false => some (s.row.write_lock cfg.owner)
  | .localLock _ .write true => some (s.row.take_write_lock_and_read cfg.owner)
  | .remoteLock c kind =>
    match s.access c, kind with
    | .pointed row referenced, .read =>
      some (s.row.remote_take_read_lock_and_read (cfg.host c) row (!referenced))
    | .pointed row referenced, .write =>
      some (s.row.remote_take_write_lock_and_read (cfg.host c) row (!referenced))
    | .searched row .scan, .read =>
      some (s.row.remote_read_lock_and_inc_ref_cnt (cfg.host c) row)
    | .searched row .scan, .write =>
      some (s.row.remote_write_lock_and_inc_ref_cnt (cfg.host c) row)
    | _, _ => none
  | _ => none

def reads (s : RowSystem α C) : RowLabel α C → Bool
  | .localLock _ _ copy => copy
  | .remoteLock c _ =>
    match s.access c with
    | .pointed .. => true
    | _ => false
  | _ => false

def Holds (s : RowSystem α C) (c : C) (kind : LockKind) : Prop :=
  (s.access c).held = some kind

omit [DecidableEq C] in
instance (s : RowSystem α C) (c : C) (kind : LockKind) : Decidable (s.Holds c kind) :=
  inferInstanceAs (Decidable (_ = _))

end RowSystem

end Tigon.TwoPLPasha
