import Tigon.TwoPLPasha.RowView

namespace Tigon.TwoPLPasha

open Tigon.Library

namespace RowView

variable {α β : Type}

-- Both copies of a row stand for one value of `π`: the shared one while the row is
-- migrated, the owner's unless the shared one was written since the move-in.
structure CopiesAgree (π : Copy α → β) (x : β) (v : RowView α) : Prop where
  shared : v.migrated = true → π v.shared = x
  owner : v.mod_in = false → π v.owner = x
  mod_in : v.mod_in = true → v.migrated = true

namespace CopiesAgree

variable {π : Copy α → β} {x : β} {v : RowView α}

section

variable (h : CopiesAgree π x v)

include h

theorem ownerSees : π v.ownerSees = x := by
  rw [RowView.ownerSees]
  split
  · rename_i hin
    exact h.shared (h.mod_in hin)
  · rename_i hin
    exact h.owner (eq_false_of_ne_true hin)

theorem refresh : CopiesAgree π x v.refresh := by
  unfold RowView.refresh
  split
  · rename_i hin
    have hmig := h.mod_in ((Bool.and_eq_true _ _).mp hin).1
    exact ⟨h.shared, fun _ => h.shared hmig, nofun⟩
  · exact h

theorem of_lock (l : LockView) : CopiesAgree π x { v with lock := l } :=
  ⟨h.shared, h.owner, h.mod_in⟩

theorem localLock (kind : LockKind) : CopiesAgree π x (v.localLock kind) := by
  rw [RowView.localLock]
  split
  · exact h.refresh.of_lock _
  · exact h.refresh

theorem remoteLock (kind : LockKind) : CopiesAgree π x (v.remoteLock kind) := by
  rw [RowView.remoteLock]
  split
  · exact h.of_lock _
  · exact h

theorem editsShared {f : Copy α → Copy α} {v' : RowView α} (hedit : EditsShared f v v')
    (hf : ∀ c, π (f c) = π c) : CopiesAgree π x v' := by
  rcases hedit with rfl | rfl
  · exact h
  · exact ⟨fun hm => (hf v.shared).trans (h.shared hm), h.owner, h.mod_in⟩

theorem setValid (hπ : ∀ (c : Copy α) (b : Bool), π { c with valid := b } = π c) (is_valid : Bool) :
    CopiesAgree π x (v.setValid is_valid) := by
  rw [RowView.setValid]
  split
  · exact ⟨fun hm => (hπ v.shared is_valid).trans (h.shared hm), h.owner, h.mod_in⟩
  · exact ⟨h.shared, fun hin => (hπ v.owner is_valid).trans (h.owner hin), h.mod_in⟩

theorem releaseVersion (hπ : ∀ (c : Copy α) (tid : Word), π { c with version := tid } = π c)
    (new_value : Word) : CopiesAgree π x (v.releaseVersion new_value) := by
  rw [RowView.releaseVersion]
  split
  · exact ⟨fun hm => (hπ v.shared _).trans (h.shared hm), h.owner, h.mod_in⟩
  · exact ⟨h.shared, fun hin => (hπ v.owner _).trans (h.owner hin), h.mod_in⟩

end

-- The remaining operations, for what does not depend on the payload.
variable (hπ : ∀ (c : Copy α) (d : α), π { c with data := d } = π c)

include hπ

theorem update (h : CopiesAgree π x v) (value : α) : CopiesAgree π x (v.update value) := by
  unfold RowView.update
  split
  · rename_i hm
    exact ⟨fun _ => (hπ v.shared value).trans (h.shared hm), nofun, fun _ => hm⟩
  · exact ⟨h.shared, fun hin => (hπ v.owner value).trans (h.owner hin), h.mod_in⟩

theorem moveIn (h : CopiesAgree π x v) (hm : v.migrated = false) (optimize : Bool) (p : Ptr)
    (prev_real next_real : Bool) (fresh : α) :
    CopiesAgree π x (v.moveIn optimize p prev_real next_real fresh) := by
  have hin : v.mod_in = false := by
    cases hmod : v.mod_in with
    | false => rfl
    | true => exact absurd (h.mod_in hmod) (by simp [hm])
  exact ⟨fun _ => (hπ v.owner _).trans (h.owner hin), fun _ => h.owner hin, nofun⟩

theorem moveOut (h : CopiesAgree π x v) (hm : v.migrated = true) (optimize : Bool) :
    CopiesAgree π x (v.moveOut optimize) :=
  ⟨nofun, fun _ => (hπ v.shared _).trans (h.shared hm), nofun⟩

end CopiesAgree

end RowView

end Tigon.TwoPLPasha
