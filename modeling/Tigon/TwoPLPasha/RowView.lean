import Tigon.TwoPLPasha.Metadata

namespace Tigon.TwoPLPasha

open Tigon.Library

structure Copy (α : Type) where
  valid : Bool
  version : Word
  data : α
deriving DecidableEq

-- What a row is, with every packed word unpacked: its locks wherever they are kept at
-- the moment, where its shared part
-- is and what that says about the neighbours, the two copies and the flags that
-- say which of them was written last.
structure RowView (α : Type) where
  lock : LockView
  migrated : Bool
  row : Ptr
  cxl : Option Ptr
  prev_real : Bool
  next_real : Bool
  mod_in : Bool
  mod_out : Bool
  owner : Copy α
  shared : Copy α
  allocated : Bool
deriving DecidableEq

namespace RowView

variable {α : Type}

-- What a call through a stale pointer can at most do: edit a block of SCC data that is
-- in use again.
def EditsShared (f : Copy α → Copy α) (v v' : RowView α) : Prop :=
  v' = v ∨ v' = { v with shared := f v.shared }

variable {v : RowView α}

theorem EditsShared.lock {f : Copy α → Copy α} {v' : RowView α} (h : EditsShared f v v') :
    v'.lock = v.lock := by
  rcases h with rfl | rfl <;> rfl

def ownerSees (v : RowView α) : Copy α :=
  if v.mod_in then v.shared else v.owner

def refresh (v : RowView α) : RowView α :=
  if v.mod_in && v.shared.valid then { v with owner := v.shared, mod_in := false } else v

@[simp]
theorem lock_refresh (v : RowView α) : v.refresh.lock = v.lock := by
  rw [refresh]
  split <;> rfl

def localLocks (kind : LockKind) (v : RowView α) : Bool :=
  v.ownerSees.valid && v.lock.free 31 kind

def localLock (kind : LockKind) (v : RowView α) : RowView α :=
  if v.localLocks kind then { v.refresh with lock := v.lock.acquire kind } else v.refresh

theorem free_of_localLocks {kind : LockKind} (h : v.localLocks kind = true) :
    v.lock.free 31 kind = true :=
  ((Bool.and_eq_true _ _).mp h).2

theorem lock_localLock (kind : LockKind) (v : RowView α) :
    (v.localLock kind).lock = if v.localLocks kind then v.lock.acquire kind else v.lock := by
  rw [localLock]
  split
  · rfl
  · exact v.lock_refresh

def remoteLocks (kind : LockKind) (v : RowView α) : Bool :=
  v.shared.valid && v.lock.free 31 kind

def remoteLock (kind : LockKind) (v : RowView α) : RowView α :=
  if v.remoteLocks kind then { v with lock := v.lock.acquire kind } else v

theorem free_of_remoteLocks {kind : LockKind} (h : v.remoteLocks kind = true) :
    v.lock.free 31 kind = true :=
  ((Bool.and_eq_true _ _).mp h).2

theorem lock_remoteLock (kind : LockKind) (v : RowView α) :
    (v.remoteLock kind).lock = if v.remoteLocks kind then v.lock.acquire kind else v.lock := by
  rw [remoteLock]
  split <;> rfl

structure Usable (v : RowView α) : Prop where
  owner : v.ownerSees.valid = true
  shared : v.migrated = true → v.shared.valid = true
  unlocked : v.lock = ⟨0, false⟩

instance (v : RowView α) : Decidable v.Usable :=
  decidable_of_iff (v.ownerSees.valid = true ∧ (v.migrated = true → v.shared.valid = true) ∧
    v.lock = ⟨0, false⟩) ⟨fun h => ⟨h.1, h.2.1, h.2.2⟩, fun h => ⟨h.owner, h.shared, h.unlocked⟩⟩

theorem Usable.free (h : v.Usable) (kind : LockKind) : v.lock.free 31 kind = true := by
  rw [h.unlocked]
  cases kind <;> rfl

def updateShared (value : α) (v : RowView α) : RowView α :=
  { v with shared := { v.shared with data := value }, mod_in := true }

def update (value : α) (v : RowView α) : RowView α :=
  if v.migrated then v.updateShared value
  else { v with owner := { v.owner with data := value }, mod_out := true }

@[simp]
theorem lock_update (value : α) (v : RowView α) : (v.update value).lock = v.lock := by
  rw [update]
  split <;> rfl

def release (kind : LockKind) (v : RowView α) : RowView α :=
  { v with lock := v.lock.release kind }

def releaseShared (new_value : Word) (v : RowView α) : RowView α :=
  { v with
    lock := v.lock.release .write
    shared := { v.shared with version := remove_lock_bit new_value } }

-- A local word takes the new value as it is, lock bits included.
def releaseVersion (new_value : Word) (v : RowView α) : RowView α :=
  if v.migrated then v.releaseShared new_value
  else { v with
    lock := ⟨(read_lock_num new_value).toNat, is_write_locked new_value⟩
    owner := { v.owner with version := remove_lock_bit new_value } }

def setValid (is_valid : Bool) (v : RowView α) : RowView α :=
  if v.migrated then { v with shared := { v.shared with valid := is_valid } }
  else { v with owner := { v.owner with valid := is_valid } }

@[simp]
theorem lock_setValid (is_valid : Bool) (v : RowView α) : (v.setValid is_valid).lock = v.lock := by
  rw [setValid]
  split <;> rfl

-- `fresh` is the content of the SCC block before the copy.
def moveIn (optimize : Bool) (p : Ptr) (prev_real next_real : Bool) (fresh : α)
    (v : RowView α) : RowView α :=
  { v with
    migrated := true
    row := p
    cxl := some (v.cxl.getD p)
    prev_real := prev_real
    next_real := next_real
    mod_in := false
    mod_out := false
    shared := { v.owner with data := if v.mod_out || !optimize then v.owner.data else fresh }
    allocated := true }

def moveOut (optimize : Bool) (v : RowView α) : RowView α :=
  { v with
    migrated := false
    row := 0
    cxl := none
    prev_real := false
    next_real := false
    mod_in := false
    mod_out := false
    owner := { v.shared with
      data := if v.mod_in || !optimize then v.shared.data else v.owner.data }
    shared := { v.shared with valid := false } }

end RowView

end Tigon.TwoPLPasha
