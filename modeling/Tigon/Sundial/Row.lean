import Mathlib.Logic.Basic

namespace Tigon.Sundial

open Option

-- SundialMetadata with the payload it guards. No owner is the owner 0 of the source.
structure Row (τ α : Type) where
  wts : Nat
  rts : Nat
  owner : Option τ
  is_valid : Bool
  data : α
deriving DecidableEq

namespace Row

variable {τ α : Type}

def init (value : α) (is_tuple_valid : Bool) : Row τ α := ⟨0, 0, none, is_tuple_valid, value⟩

def rwts (r : Row τ α) : Nat × Nat := (r.wts, r.rts)

-- Each of the following is one section under the row's latch; none is a failed CHECK.
def read (r : Row τ α) : (Nat × Nat) × α := (r.rwts, r.data)

def write_lock [DecidableEq τ] (r : Row τ α) (transaction_id : τ) :
    Row τ α × Bool × (Nat × Nat) :=
  if r.is_valid = false then (r, false, (0, 0))
  else if r.owner = none ∨ r.owner = some transaction_id then
    ({ r with owner := some transaction_id }, true, r.rwts)
  else (r, false, r.rwts)

def renew_lease (r : Row τ α) (wts commit_ts : Nat) : Row τ α × Bool :=
  if r.is_valid = false then (r, false)
  else if wts ≠ r.wts ∨ (commit_ts > r.rts ∧ r.owner.isSome) then (r, false)
  else ({ r with rts := max r.rts commit_ts }, true)

def update [DecidableEq τ] (r : Row τ α) (value : α) (commit_ts : Nat) (transaction_id : τ) :
    Option (Row τ α) :=
  if r.is_valid = true ∧ r.owner = some transaction_id then
    some { r with data := value, wts := commit_ts, rts := commit_ts }
  else none

def unlock [DecidableEq τ] (r : Row τ α) (transaction_id : τ) : Option (Row τ α) :=
  if r.is_valid = true ∧ r.owner = some transaction_id then some { r with owner := none }
  else none

def mark_tuple_as_valid (r : Row τ α) : Option (Row τ α) :=
  if r.is_valid = false then some { r with is_valid := true } else none

variable {r r' : Row τ α} {t : τ} {ok : Bool} {wts commit_ts : Nat}

theorem write_lock_spec [DecidableEq τ] (r : Row τ α) (t : τ) :
    ((r.write_lock t).2.1 = true ∧ r.is_valid = true ∧ (r.owner = none ∨ r.owner = some t) ∧
      (r.write_lock t).1 = { r with owner := some t } ∧ (r.write_lock t).2.2 = r.rwts) ∨
    ((r.write_lock t).2.1 = false ∧ (r.write_lock t).1 = r) := by
  unfold write_lock
  split
  · exact .inr ⟨rfl, rfl⟩
  · rename_i hvalid
    split
    · rename_i hfree
      exact .inl ⟨rfl, by simpa using hvalid, hfree, rfl, rfl⟩
    · exact .inr ⟨rfl, rfl⟩

theorem renew_lease_spec (r : Row τ α) (wts commit_ts : Nat) :
    ((r.renew_lease wts commit_ts).2 = true ∧ wts = r.wts ∧
      (commit_ts ≤ r.rts ∨ r.owner = none) ∧
      (r.renew_lease wts commit_ts).1 = { r with rts := max r.rts commit_ts }) ∨
    ((r.renew_lease wts commit_ts).2 = false ∧ (r.renew_lease wts commit_ts).1 = r) := by
  unfold renew_lease
  split
  · exact .inr ⟨rfl, rfl⟩
  · split
    · exact .inr ⟨rfl, rfl⟩
    · rename_i hrefused
      rw [not_or, not_and_or, not_not, Nat.not_lt, Bool.not_eq_true, isSome_eq_false_iff,
        isNone_iff_eq_none] at hrefused
      exact .inl ⟨rfl, hrefused.1, hrefused.2, rfl⟩

theorem update_eq_some [DecidableEq τ] {value : α}
    (h : r.update value commit_ts t = some r') :
    r.is_valid = true ∧ r.owner = some t ∧
      r' = { r with data := value, wts := commit_ts, rts := commit_ts } := by
  obtain ⟨⟨hvalid, howner⟩, rfl⟩ := ite_some_none_eq_some.mp h
  exact ⟨hvalid, howner, rfl⟩

theorem unlock_eq_some [DecidableEq τ] (h : r.unlock t = some r') :
    r.is_valid = true ∧ r.owner = some t ∧ r' = { r with owner := none } := by
  obtain ⟨⟨hvalid, howner⟩, rfl⟩ := ite_some_none_eq_some.mp h
  exact ⟨hvalid, howner, rfl⟩

end Row

end Tigon.Sundial
