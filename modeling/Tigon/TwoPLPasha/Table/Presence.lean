import Tigon.TwoPLPasha.RowView.Migration
import Tigon.TwoPLPasha.Table

namespace Tigon.TwoPLPasha

open RowState RowView Tigon.Library

-- What matters of a row to its neighbours: whether it is migrated, what its bits say
-- about them, and its lock.
structure Presence where
  lock : LockView
  migrated : Bool
  prev_real : Bool
  next_real : Bool
deriving DecidableEq

def RowView.presence {α : Type} (v : RowView α) : Presence :=
  ⟨v.lock, v.migrated, v.prev_real, v.next_real⟩

namespace RowState

variable {α : Type} {r r' : RowState α}

def presence (r : RowState α) : Presence := r.view.presence

theorem presence_of_view (h : r'.view = r.view) : r'.presence = r.presence := by
  rw [presence, h, presence]

theorem presence_of_not_migrated (h : r.lmeta.is_migrated = false) :
    r.presence = ⟨r.presence.lock, false, false, false⟩ := by
  simp [presence, RowView.presence, view, h]

theorem next_real_imp_migrated (h : r.presence.next_real = true) : r.presence.migrated = true :=
  ((Bool.and_eq_true _ _).mp h).1

theorem prev_real_imp_migrated (h : r.presence.prev_real = true) : r.presence.migrated = true :=
  ((Bool.and_eq_true _ _).mp h).1

theorem migrated_and_prev_real (r : RowState α) :
    (r.presence.migrated && r.presence.prev_real) = r.presence.prev_real := by
  cases hreal : r.presence.prev_real with
  | false => simp
  | true => simp [prev_real_imp_migrated hreal]

theorem migrated_and_next_real (r : RowState α) :
    (r.presence.migrated && r.presence.next_real) = r.presence.next_real := by
  cases hreal : r.presence.next_real with
  | false => simp
  | true => simp [next_real_imp_migrated hreal]

theorem presence_onMigrated {f : TwoPLPashaMetadataShared → TwoPLPashaMetadataShared}
    (prev_real next_real : Bool → Bool)
    (hf : ∀ m, (f m).fields = { m.fields with
      prev_real := prev_real m.fields.prev_real
      next_real := next_real m.fields.next_real }) :
    (r.onMigrated f).presence = { r.presence with
      prev_real := r.presence.migrated && prev_real r.presence.prev_real
      next_real := r.presence.migrated && next_real r.presence.next_real } := by
  rw [onMigrated]
  split
  · rename_i hm
    rw [presence, view_onSmeta f ⟨hm, rfl⟩, hf]
    simp [presence, RowView.presence, view, hm]
  · rename_i hm
    have hfalse := eq_false_of_ne_true hm
    rw [presence_of_not_migrated hfalse]
    rfl

theorem presence_clear_next (r : RowState α) :
    (r.onMigrated fun m => m.clear_next_key_real_bit).presence
      = { r.presence with next_real := false } := by
  rw [presence_onMigrated id (fun _ => false) fun m => m.fields_clear_next_key_real_bit]
  simp [migrated_and_prev_real]

theorem presence_clear_prev (r : RowState α) :
    (r.onMigrated fun m => m.clear_prev_key_real_bit).presence
      = { r.presence with prev_real := false } := by
  rw [presence_onMigrated (fun _ => false) id fun m => m.fields_clear_prev_key_real_bit]
  simp [migrated_and_next_real]

theorem presence_set_next (r : RowState α) :
    (r.onMigrated fun m => m.set_next_key_real_bit).presence
      = { r.presence with next_real := r.presence.migrated } := by
  rw [presence_onMigrated id (fun _ => true) fun m => m.fields_set_next_key_real_bit]
  simp [migrated_and_prev_real]

theorem presence_set_prev (r : RowState α) :
    (r.onMigrated fun m => m.set_prev_key_real_bit).presence
      = { r.presence with prev_real := r.presence.migrated } := by
  rw [presence_onMigrated (fun _ => true) id fun m => m.fields_set_prev_key_real_bit]
  simp [migrated_and_next_real]

theorem wellFormed_onMigrated {f : TwoPLPashaMetadataShared → TwoPLPashaMetadataShared}
    (hf : ∀ m, (f m).fields.scc_data = m.fields.scc_data) (hr : r.WellFormed) :
    (r.onMigrated f).WellFormed := by
  rw [onMigrated]
  split
  · exact wellFormed_onSmeta hr fun _ => hf _
  · exact hr

theorem wellFormed_placeholder (hcxl : r.cxl = none) (value : α) :
    (r.placeholder value).WellFormed :=
  ⟨nofun, nofun, hcxl⟩

theorem presence_placeholder (r : RowState α) (value : α) :
    (r.placeholder value).presence = ⟨⟨0, false⟩, false, false, false⟩ := by
  have hzero : tidFields 0#64 = ⟨0, false, 0#64⟩ := by decide
  simp [placeholder, presence, RowView.presence, view, TwoPLPashaMetadataLocalInit, hzero]

theorem is_migrated_delete (is_local_delete : Bool) (r : RowState α) :
    (r.delete is_local_delete).lmeta.is_migrated = false := by
  rw [delete]
  split
  · rfl
  · rename_i hm
    exact eq_false_of_ne_true hm

theorem wellFormed_delete (hr : r.WellFormed) (is_local_delete : Bool) :
    (r.delete is_local_delete).WellFormed := by
  have hnot := is_migrated_delete is_local_delete r
  refine ⟨?_, fun hm => absurd (hnot.symm.trans hm) (by decide), ?_⟩
  · intro o ho
    refine hr.offset o ?_
    rw [← ho, delete]
    split
    · cases is_local_delete <;> rfl
    · rfl
  · rw [hnot]
    rw [delete]
    split
    · cases is_local_delete <;> rfl
    · rename_i hm
      have hcxl := hr.cxl
      rw [if_neg hm] at hcxl
      exact hcxl

end RowState

namespace RowView

variable {α : Type} (v : RowView α)

def SamePlace (v v' : RowView α) : Prop := v'.presence = { v.presence with lock := v'.lock }

theorem SamePlace.apply {v v' : RowView α} (h : SamePlace v v') (g : Presence → Bool)
    (hg : ∀ q lock, g { q with lock := lock } = g q) : g v'.presence = g v.presence := by
  rw [h]
  exact hg v.presence v'.lock

theorem samePlace_of_eq {v v' : RowView α} (h : v' = v) : SamePlace v v' := by
  subst h
  rfl

theorem samePlace_localLock (kind : LockKind) : SamePlace v (v.localLock kind) := by
  have hrefresh : v.refresh.presence = v.presence := by
    rw [refresh]
    split <;> rfl
  rw [SamePlace, localLock]
  split
  · have hplace := congrArg (fun q : Presence => { q with lock := v.lock.acquire kind }) hrefresh
    exact hplace
  · rw [hrefresh, lock_refresh]
    rfl

theorem samePlace_remoteLock (kind : LockKind) : SamePlace v (v.remoteLock kind) := by
  rw [SamePlace, remoteLock]
  split <;> rfl

theorem samePlace_update (value : α) : SamePlace v (v.update value) := by
  rw [SamePlace, update]
  split <;> rfl

theorem samePlace_releaseVersion (new_value : Word) :
    SamePlace v (v.releaseVersion new_value) := by
  rw [SamePlace, releaseVersion]
  split <;> rfl

theorem samePlace_setValid (is_valid : Bool) : SamePlace v (v.setValid is_valid) := by
  rw [SamePlace, setValid]
  split <;> rfl

theorem EditsShared.samePlace {f : Copy α → Copy α} {v v' : RowView α}
    (h : EditsShared f v v') : SamePlace v v' := by
  rcases h with rfl | rfl <;> rfl

end RowView

theorem RowCall.presence_apply {α : Type} {owner : Host} {r r' : RowState α} {call : RowCall α}
    (hr : r.WellFormed) (h : call.apply owner r = some r') :
    SamePlace r.view r'.view ∧ r'.WellFormed := by
  cases call with
  | lock kind copy =>
    cases h
    obtain ⟨hview, -, -, -, hwf⟩ := localLock_refines hr kind copy owner
    rw [hview]
    exact ⟨samePlace_localLock _ kind, hwf⟩
  | update value =>
    cases h
    obtain ⟨hview, hwf⟩ := update_refines hr value
    rw [hview]
    exact ⟨samePlace_update _ value, hwf⟩
  | release kind =>
    cases h
    obtain ⟨hview, -, hwf⟩ := lockRelease_refines kind hr
    exact ⟨by rw [hview]; rfl, hwf⟩
  | releaseVersion new_value =>
    obtain ⟨hview, hwf⟩ := write_lock_release_version_refines hr h
    rw [hview]
    exact ⟨samePlace_releaseVersion _ new_value, hwf⟩
  | remoteLock host row kind copy inc =>
    cases h
    by_cases hcur : r.IsCurrent row
    · obtain ⟨hview, -, -, -, hwf⟩ := remoteLock_refines hr hcur kind copy inc host
      rw [hview]
      exact ⟨samePlace_remoteLock _ kind, hwf⟩
    · obtain ⟨hview, hwf⟩ := remoteLock_stale hcur kind copy inc host
      exact ⟨samePlace_of_eq hview, hwf hr⟩
  | remoteUpdate row value =>
    cases h
    by_cases hcur : r.IsCurrent row
    · obtain ⟨hview, hwf⟩ := remote_update_refines hr hcur value
      rw [hview]
      exact ⟨rfl, hwf⟩
    · obtain ⟨hview, hwf⟩ := remote_update_stale hcur value
      exact ⟨hview.samePlace, hwf hr⟩
  | remoteRelease row kind =>
    cases h
    by_cases hcur : r.IsCurrent row
    · obtain ⟨hview, -, hwf⟩ := remoteLockRelease_refines kind hr hcur
      exact ⟨by rw [hview]; rfl, hwf⟩
    · obtain ⟨hview, hwf⟩ := remoteLockRelease_stale kind hcur
      exact ⟨samePlace_of_eq hview, hwf hr⟩
  | remoteReleaseVersion host row new_value =>
    by_cases hcur : r.IsCurrent row
    · obtain ⟨hview, hwf⟩ := remote_write_lock_release_version_refines hr hcur h
      rw [hview]
      exact ⟨rfl, hwf⟩
    · obtain ⟨hview, hwf⟩ := remote_write_lock_release_version_stale hcur h
      exact ⟨hview.samePlace, hwf hr⟩
  | getMigratedRow row inc =>
    cases h
    exact ⟨samePlace_of_eq (view_get_migrated_row_latched r row inc),
      wellFormed_get_migrated_row_latched row hr inc⟩
  | decreaseReferenceCount row =>
    cases h
    exact ⟨samePlace_of_eq (view_decrease_reference_count_via_ptr r row),
      wellFormed_onScc hr _⟩
  | remoteModifyTupleValidBit host row is_valid is_insert =>
    by_cases hcur : r.IsCurrent row
    · obtain ⟨hview, hwf⟩ := remote_modify_tuple_valid_bit_refines hr hcur h
      rw [hview]
      exact ⟨samePlace_setValid _ is_valid, hwf⟩
    · obtain ⟨hview, hwf⟩ := remote_modify_tuple_valid_bit_stale h
      exact ⟨hview.samePlace, hwf hr⟩

end Tigon.TwoPLPasha
