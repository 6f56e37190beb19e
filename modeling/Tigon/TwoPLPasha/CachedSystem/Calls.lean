import Tigon.TwoPLPasha.CachedSystem.Steps

namespace Tigon.TwoPLPasha

open Option Tigon.Library

namespace RowView

variable {α : Type} (v : RowView α) (kind : LockKind)

theorem localLock_copies :
    (v.localLock kind).mod_in = v.mod_in ∧ (v.localLock kind).owner = v.owner ∨
      (v.localLock kind).mod_in = false ∧ (v.localLock kind).owner = v.shared := by
  rw [localLock, refresh]
  split
  · split
    · exact .inr ⟨rfl, rfl⟩
    · exact .inl ⟨rfl, rfl⟩
  · split
    · exact .inr ⟨rfl, rfl⟩
    · exact .inl ⟨rfl, rfl⟩

theorem localLock_frame : v.localLock kind = { v with
    lock := (v.localLock kind).lock
    mod_in := (v.localLock kind).mod_in
    owner := (v.localLock kind).owner } := by
  rw [localLock, refresh]
  split
  · split <;> rfl
  · split <;> rfl

theorem remoteLock_frame :
    v.remoteLock kind = { v with lock := (v.remoteLock kind).lock } := by
  rw [remoteLock]
  split <;> rfl

end RowView

namespace RowState

variable {α : Type} {r : RowState α}

theorem localLock_unmigrated (hm : r.lmeta.is_migrated = false) (kind : LockKind) (copy : Bool)
    (host : Host) : ∃ tid,
      (localLock kind copy r host).row = { r with lmeta := { r.lmeta with tid := tid } } := by
  rw [localLock, if_pos hm]
  split
  · exact ⟨r.lmeta.tid, rfl⟩
  · rw [lockLocal]
    split
    · exact ⟨r.lmeta.tid, rfl⟩
    · exact ⟨_, rfl⟩

theorem moveIn_eq_some {r' : RowState α} {ctx : Context} {host : Host} {alloc : Allocation α}
    {inc : Bool} {keyReal : TwoPLPashaMetadataShared → TwoPLPashaMetadataShared}
    {res : migration_result} {r₁ : RowState α} {o : Word} {p : Ptr}
    (hm : r.lmeta.is_migrated = false) (hp : alloc.smeta = some p)
    (hblock : r.sccForMoveIn ctx alloc = some (r₁, o))
    (h : moveIn ctx host alloc inc keyReal r = some (r', res)) :
    installShared ctx host inc keyReal r₁ p o = some r' ∧ res = .SUCCESS := by
  rw [moveIn, if_pos hm] at h
  simp only [hp, hblock] at h
  obtain ⟨r₂, hinstall, hpair⟩ := map_eq_some_iff.mp h
  cases hpair
  exact ⟨hinstall, rfl⟩

theorem lmeta_installShared {r' : RowState α} {ctx : Context} {host : Host} {inc : Bool}
    {keyReal : TwoPLPashaMetadataShared → TwoPLPashaMetadataShared} {p : Ptr} {o : Word}
    (h : installShared ctx host inc keyReal r p o = some r') :
    r'.lmeta.scc_data = r.lmeta.scc_data ∧ ∀ h, r'.current.scc_bit h = decide (h = host) := by
  rw [installShared, finish_write, map_eq_some_iff] at h
  obtain ⟨m, hm, rfl⟩ := h
  refine ⟨rfl, fun h => ?_⟩
  have hcurrent : m.scc_bit h = decide (h = host) :=
    TwoPLPashaMetadataShared.scc_bit_finish_write _ h hm
  rw [← hcurrent, current]
  simp

end RowState

namespace RowSystem

variable {α C : Type} [DecidableEq C] {cfg : Config C} {s t : RowSystem α C} {c : C}

theorem localLock_eq_some {kind : LockKind} {copy : Bool}
    (h : s.localLock cfg c kind copy = some t) :
    s.access c = .idle ∧ t.row = (RowState.localLock kind copy s.row cfg.owner).row ∧
      t.access = Function.update s.access c
        (if (RowState.localLock kind copy s.row cfg.owner).success
          then .holding kind none none else .idle) ∧
      t.payload = s.payload ∧ t.allocated = s.allocated := by
  rw [localLock] at h
  split at h
  · split at h
    · rename_i hidle
      cases h
      exact ⟨hidle, rfl, rfl, rfl, rfl⟩
    · cases h
  · cases h

theorem remoteLock_eq_some {kind : LockKind} (h : s.remoteLock cfg c kind = some t) :
    ∃ copy inc row a, (s.access c).target = some row ∧ a.held = none ∧
      (∀ p ∈ a.pointer, p = row) ∧
      t.row = (RowState.remoteLock kind copy inc s.row (cfg.host c) row).row ∧
      t.access = Function.update s.access c
        (if (RowState.remoteLock kind copy inc s.row (cfg.host c) row).success
          then .holding kind (some row) none else a) ∧
      t.payload = s.payload ∧ t.allocated = s.allocated := by
  unfold remoteLock at h
  split at h
  · rename_i row referenced hc
    cases h
    refine ⟨true, !referenced, row, if referenced then .referenced row else .idle, by rw [hc]; rfl,
      ?_, ?_, rfl, rfl, rfl, rfl⟩
    · cases referenced <;> rfl
    · cases referenced with
      | false => nofun
      | true =>
        intro p hp
        cases hp
        rfl
  · rename_i row hc
    cases h
    exact ⟨false, true, row, .idle, by rw [hc]; rfl, rfl, nofun, rfl, rfl, rfl, rfl⟩
  · cases h

def withData (s : RowSystem α C) (x : α) : RowSystem α C :=
  { s with row := { s.row with data := x } }

omit [DecidableEq C] in
theorem LockInv.withData (h : LockInv s) (x : α) : LockInv (s.withData x) :=
  ⟨⟨h.wellFormed.offset, h.wellFormed.scc, h.wellFormed.cxl⟩, h.accounts⟩

theorem scanUpdate_eq_some {value : α} (h : s.scanUpdate c value = some t) :
    ∃ x, (s.withData x).update c value = some t := by
  rw [scanUpdate] at h
  split at h
  · exact ⟨value, h⟩
  · exact ⟨s.row.data, h⟩
  · cases h

theorem update_eq_some {value : α} (h : s.update c value = some t) :
    ∃ via written, s.access c = .holding .write via written ∧
      t.row = (match via with
        | none => s.row.update value
        | some p => s.row.remote_update p value) ∧
      t.access = Function.update s.access c (.holding .write via (some value)) ∧
      t.payload = s.payload ∧ t.allocated = s.allocated := by
  rw [update] at h
  split at h
  · rename_i via written hc
    cases h
    exact ⟨via, written, hc, rfl, rfl, rfl, rfl⟩
  · cases h

theorem release_eq_some (h : s.release c = some t) :
    ∃ kind via, s.access c = .holding kind via none ∧
      t.row = (match via with
        | none => s.row.lockRelease kind
        | some p => s.row.remoteLockRelease kind p) ∧
      t.access = Function.update s.access c (.afterLock via) ∧
      t.payload = s.payload ∧ t.allocated = s.allocated := by
  rw [release] at h
  split at h
  · rename_i kind via hc
    cases h
    exact ⟨kind, via, hc, rfl, rfl, rfl, rfl⟩
  · cases h

omit [DecidableEq C] in
theorem moveOutUnchecked_eq_some (h : s.moveOutUnchecked cfg = some t) :
    t.row = s.row.uninstallShared cfg.ctx cfg.owner ∧ t.access = s.access ∧
      t.payload = s.payload ∧ t.allocated = s.allocated := by
  cases h
  exact ⟨rfl, rfl, rfl, rfl⟩

omit [DecidableEq C] in
theorem moveIn_eq_some {alloc : Allocation α} {inc : Bool} (h : s.moveIn cfg alloc inc = some t) :
    s.admits alloc ∧
      (∃ res, RowState.moveIn cfg.ctx cfg.owner alloc inc id s.row = some (t.row, res)) ∧
      t.access = s.access ∧ t.payload = s.payload ∧
      t.allocated = alloc.smeta.toList ++ s.allocated := by
  rw [moveIn] at h
  split at h
  · rename_i hadmits
    obtain ⟨⟨r, res⟩, hmove, rfl⟩ := map_eq_some_iff.mp h
    exact ⟨hadmits, ⟨res, hmove⟩, rfl, rfl, rfl⟩
  · cases h

theorem releaseVersion_eq_some {new_value : Word}
    (h : s.releaseVersion cfg c new_value = some t) :
    ∃ via written, s.access c = .holding .write via written ∧
      (match via with
        | none => s.row.write_lock_release_version cfg.owner new_value
        | some p => s.row.remote_write_lock_release_version (cfg.host c) p new_value)
        = some t.row ∧
      t.access = Function.update s.access c (.afterLock via) ∧
      t.payload = written.getD s.payload ∧ t.allocated = s.allocated := by
  rw [releaseVersion] at h
  split at h
  · rename_i via written hc
    obtain ⟨r, hr, rfl⟩ := map_eq_some_iff.mp h
    refine ⟨via, written, hc, ?_, rfl, rfl, rfl⟩
    cases via with
    | none | some p => exact hr
  · cases h

end RowSystem

end Tigon.TwoPLPasha
