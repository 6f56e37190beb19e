import Tigon.TwoPLPasha.CachedSystem
import Tigon.TwoPLPasha.RowView.Migration

namespace Tigon.TwoPLPasha

open TwoPLPashaMetadataShared Tigon.Library

namespace RowState

variable {α : Type} {r r' r'' : RowState α} {row : Ptr} {host : Host}

structure SetsBits (bits : Host → Bool) (r r' : RowState α) : Prop where
  scc_data : r'.lmeta.scc_data = r.lmeta.scc_data
  row : r'.lmeta.migrated_row = r.lmeta.migrated_row
  bits : ∀ h, r'.current.scc_bit h = bits h

def preparedBits (r : RowState α) (host : Host) (h : Host) : Bool :=
  decide (h = host) || r.current.scc_bit h

variable {bits : Host → Bool}

theorem SetsBits.of_onSmeta {f : TwoPLPashaMetadataShared → TwoPLPashaMetadataShared}
    (hrow : r.lmeta.migrated_row = row) (hf : ∀ h, (f r.current).scc_bit h = bits h) :
    SetsBits bits r (r.onSmeta row f) := by
  refine ⟨rfl, rfl, fun h => ?_⟩
  rw [current_onSmeta f hrow]
  exact hf h

theorem SetsBits.trans {bits' : Host → Bool} (h : SetsBits bits r r') (h' : SetsBits bits' r' r'') :
    SetsBits bits' r r'' :=
  ⟨h'.scc_data.trans h.scc_data, h'.row.trans h.row, h'.bits⟩

theorem setsBits_prepare_read (hrow : r.lmeta.migrated_row = row) :
    SetsBits (r.preparedBits host) r (r.prepare_read host row) :=
  .of_onSmeta hrow fun h => by simp [preparedBits]

variable {kind : LockKind}

theorem scc_bit_sharedAcquire {m : TwoPLPashaMetadataShared}
    (hfree : sharedUnavailable kind m = false) (h : Host) :
    (sharedAcquire kind m).scc_bit h = m.scc_bit h := by
  cases kind with
  | read =>
    have hlt := m.readers_lt
    rw [sharedUnavailable_eq, Bool.not_eq_false', LockView.free, Bool.and_eq_true,
      bne_iff_ne] at hfree
    have hne : m.fields.readers ≠ 31 := hfree.2
    exact m.scc_bit_increase_reader_count h (by omega)
  | write => exact m.scc_bit_set_write_locked h

theorem setsBits_lockShared (hrow : r.lmeta.migrated_row = row)
    (h : r.lockShared kind row = some r') : SetsBits r.current.scc_bit r r' := by
  rw [lockShared] at h
  split at h
  · cases h
  · rename_i hfree
    cases h
    subst hrow
    exact .of_onSmeta rfl (scc_bit_sharedAcquire (eq_false_of_ne_true hfree))

theorem setsBits_answer {copy : Bool} {tid : Word} {src : α} {o : Option (RowState α)}
    (hr : SetsBits bits r r') (ho : ∀ r'' ∈ o, SetsBits bits r r'') :
    SetsBits bits r (answer copy r' tid src o).row := by
  cases o with
  | none => exact hr
  | some r'' => exact ho r'' rfl

theorem setsBits_adoptShared (hrow : r.lmeta.migrated_row = row) :
    SetsBits r.current.scc_bit r (r.adoptShared row) := by
  subst hrow
  refine ⟨rfl, rfl, fun h => ?_⟩
  have hcurrent : (r.adoptShared r.lmeta.migrated_row).current =
      r.current.clear_is_data_modified_since_moved_in := by
    simp [adoptShared, current, onSmeta]
  rw [hcurrent]
  exact scc_bit_clear_is_data_modified_since_moved_in ..

theorem setsBits_refresh (host : Host) :
    SetsBits (r.preparedBits host) r (r.refresh host).1 := by
  have hprepare : SetsBits (r.preparedBits host) r (r.prepare_read host r.lmeta.migrated_row) :=
    setsBits_prepare_read rfl
  rw [refresh]
  split
  · split
    · exact hprepare
    · have hadopt := setsBits_adoptShared hprepare.row
      exact hprepare.trans ⟨hadopt.scc_data, hadopt.row, fun h => by
        rw [hadopt.bits, hprepare.bits]⟩
  · split
    · exact hprepare
    · exact hprepare

theorem setsBits_localLock (hm : r.lmeta.is_migrated = true) (kind : LockKind) (copy : Bool)
    (host : Host) : SetsBits (r.preparedBits host) r (localLock kind copy r host).row := by
  have hrefresh := setsBits_refresh (r := r) host
  rw [localLock, if_neg (by simp [hm])]
  split
  · rename_i r' hr'
    rw [hr'] at hrefresh
    exact hrefresh
  · rename_i r' tid hr'
    rw [hr'] at hrefresh
    refine setsBits_answer hrefresh fun r'' hr'' => ?_
    have hlock := setsBits_lockShared rfl hr''
    refine hrefresh.trans ⟨hlock.scc_data, hlock.row, fun h => ?_⟩
    rw [hlock.bits, hrefresh.bits]

section

variable (hrow : r.lmeta.migrated_row = row)

include hrow

theorem setsBits_remoteLock (kind : LockKind) (copy inc : Bool) (host : Host) :
    SetsBits (r.preparedBits host) r (remoteLock kind copy inc r host row).row := by
  have hprepare : SetsBits (r.preparedBits host) r (r.prepare_read host row) :=
    setsBits_prepare_read hrow
  rw [remoteLock]
  split
  · exact hprepare
  · refine setsBits_answer hprepare fun r'' hr'' => ?_
    obtain ⟨r₁, hr₁, rfl⟩ := Option.map_eq_some_iff.mp hr''
    have hlock := setsBits_lockShared (hprepare.row.trans hrow) hr₁
    refine hprepare.trans ⟨?_, ?_, fun h => ?_⟩
    · cases inc <;> exact hlock.scc_data
    · cases inc <;> exact hlock.row
    · rw [← hprepare.bits h, ← hlock.bits h]
      cases inc <;> rfl

theorem setsBits_remote_update (value : α) :
    SetsBits r.current.scc_bit r (r.remote_update row value) := by
  refine ⟨rfl, rfl, fun h => ?_⟩
  rw [remote_update, current_onSmeta (r := r.onScc row _) _ hrow]
  exact scc_bit_set_is_data_modified_since_moved_in ..

theorem setsBits_remoteLockRelease
    (hheld : LockView.held kind ⟨r.current.fields.readers, r.current.fields.writer⟩) :
    SetsBits r.current.scc_bit r (r.remoteLockRelease kind row) := by
  cases kind with
  | read =>
    refine .of_onSmeta hrow fun h => ?_
    exact scc_bit_decrease_reader_count _ h hheld
  | write =>
    exact .of_onSmeta hrow fun h => scc_bit_clear_write_locked _ h

-- The CHECK of finish_write is passed exactly by a host whose bit is set, and its bit is
-- the only one left.
theorem remote_write_lock_release_version_isSome {new_value : Word}
    (hbit : r.current.scc_bit host = true) :
    (r.remote_write_lock_release_version host row new_value).isSome = true := by
  subst hrow
  rw [remote_write_lock_release_version, finish_write, Option.isSome_map]
  rw [finish_write_eq_some]
  · rfl
  · rw [smeta_onScc, smeta_onSmeta_self, scc_bit_clear_write_locked]
    exact hbit

theorem setsBits_remote_write_lock_release_version {new_value : Word}
    (h : r.remote_write_lock_release_version host row new_value = some r') :
    SetsBits (fun h => decide (h = host)) r r' := by
  rw [remote_write_lock_release_version, finish_write, Option.map_eq_some_iff] at h
  obtain ⟨m, hm, rfl⟩ := h
  refine ⟨rfl, rfl, fun h => ?_⟩
  rw [current_onSmeta (r := (r.onSmeta row _).onScc row _) _ hrow]
  exact scc_bit_finish_write _ h hm

end

end RowState

end Tigon.TwoPLPasha
