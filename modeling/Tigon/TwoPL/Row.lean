import Tigon.Protocol.LockWord

namespace Tigon.TwoPL

open Option

open Tigon.Library Tigon.Protocol.LockWord

structure Row (α : Type) where
  tid : Word
  is_valid : Bool
  value : α
deriving DecidableEq

namespace Row

variable {α : Type}

-- "can we get the lock?"
def canLock (old_value : Word) : LockKind → Bool
  | .read => !(is_write_locked old_value || read_lock_num old_value == read_lock_max)
  | .write => !(is_read_locked old_value || is_write_locked old_value)

def locked (old_value : Word) : LockKind → Word
  | .read => addReader old_value
  | .write => addWriter old_value

def lock (kind : LockKind) (row : Row α) : Option (Word × Row α) :=
  if row.is_valid && canLock row.tid kind then
    some (remove_lock_bit row.tid, { row with tid := locked row.tid kind })
  else none

def read_lock (row : Row α) : Option (Word × Row α) := row.lock .read

def write_lock (row : Row α) : Option (Word × Row α) := row.lock .write

def lock_and_read (kind : LockKind) (row : Row α) : Option (α × Word × Row α) :=
  (row.lock kind).map fun locked => (row.value, locked)

def take_read_lock_and_read (row : Row α) : Option (α × Word × Row α) := row.lock_and_read .read

def take_write_lock_and_read (row : Row α) : Option (α × Word × Row α) :=
  row.lock_and_read .write

-- Reading and releasing CHECK that the row is valid.
def read (row : Row α) : Option α := if row.is_valid then some row.value else none

def read_lock_release (row : Row α) : Option (Row α) :=
  if row.is_valid then some { row with tid := dropReader row.tid } else none

def write_lock_release (row : Row α) : Option (Row α) :=
  if row.is_valid then some { row with tid := dropWriter row.tid } else none

def write_lock_release_with (new_value : Word) (row : Row α) : Option (Row α) :=
  if row.is_valid then some { row with tid := new_value } else none

def update (value : α) (row : Row α) : Row α := { row with value := value }

variable {row row' : Row α} {tid : Word} {kind : LockKind}

theorem canLock_eq (old_value : Word) (kind : LockKind) :
    canLock old_value kind = (view old_value).free 511 kind := by
  cases kind <;> simp [canLock, LockView.free, Bool.not_or, bne, -ne_eq]

theorem view_locked {old_value : Word} (h : (view old_value).free 511 kind = true) :
    view (locked old_value kind) = (view old_value).acquire kind := by
  cases kind with
  | read =>
    simp only [LockView.free, Bool.and_eq_true, bne_iff_ne] at h
    exact (view_addReader h.2).1
  | write =>
    simp only [LockView.free, Bool.and_eq_true, Bool.not_eq_true', beq_iff_eq] at h
    exact (view_addWriter h.2).1

theorem lock_eq_some (h : row.lock kind = some (tid, row')) :
    (view row.tid).free 511 kind = true ∧ view row'.tid = (view row.tid).acquire kind ∧
      row'.value = row.value ∧ row'.is_valid = true := by
  obtain ⟨hfree, hrow⟩ := ite_none_right_eq_some.mp h
  rw [Bool.and_eq_true, canLock_eq] at hfree
  cases hrow
  exact ⟨hfree.2, view_locked hfree.2, rfl, hfree.1⟩

theorem read_lock_release_eq_some (h : row.read_lock_release = some row') :
    row'.tid = dropReader row.tid ∧ row'.value = row.value := by
  obtain ⟨-, hrow⟩ := ite_none_right_eq_some.mp h
  cases hrow
  exact ⟨rfl, rfl⟩

theorem write_lock_release_eq_some (h : row.write_lock_release = some row') :
    row'.value = row.value := by
  obtain ⟨-, hrow⟩ := ite_none_right_eq_some.mp h
  cases hrow
  rfl

theorem write_lock_release_with_eq_some {new_value : Word}
    (h : row.write_lock_release_with new_value = some row') : row'.value = row.value := by
  obtain ⟨-, hrow⟩ := ite_none_right_eq_some.mp h
  cases hrow
  rfl

end Row

end Tigon.TwoPL
