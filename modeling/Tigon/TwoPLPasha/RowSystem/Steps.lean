import Tigon.TwoPLPasha.RowSystem
import Tigon.TwoPLPasha.RowView.Migration

namespace Tigon.TwoPLPasha

open Option RowState Tigon.Library

namespace RowSystem

variable {α C : Type} [DecidableEq C]

def holder (s : RowSystem α C) (c : C) : Option LockKind := (s.access c).held

structure Frame (s t : RowSystem α C) : Prop where
  life : t.life = s.life
  payload : t.payload = s.payload
  version : t.version = s.version

-- Every pointer the lock is held through is the current one; a lock of the owner's
-- local row has no pointer.
def Current (s : RowSystem α C) (via : Option Ptr) : Prop :=
  ∀ p ∈ via, s.row.IsCurrent p

omit [DecidableEq C] in
instance (s : RowSystem α C) (via : Option Ptr) : Decidable (s.Current via) :=
  inferInstanceAs (Decidable (∀ p ∈ via, _))

-- Everything a step can do, in terms of the unpacked row. Calls through a pointer
-- come in two kinds: the pointer is the row's current one, or it is not.
inductive ViewStep (cfg : Config C) (s : RowSystem α C) :
    RowLabel α C → RowSystem α C → Prop
  | keep {e : RowLabel α C} {t : RowSystem α C} (hview : t.row.view = s.row.view)
      (hacc : t.access = s.access) (hframe : Frame s t) : ViewStep cfg s e t
  | look {e : RowLabel α C} {t : RowSystem α C} {c : C} {a : Access α}
      (hc : (s.access c).held = none) (ha : a.held = none)
      (hview : t.row.view = s.row.view) (hacc : t.access = Function.update s.access c a)
      (hframe : Frame s t) : ViewStep cfg s e t
  | localLock {t : RowSystem α C} {c : C} {kind : LockKind} {copy : Bool}
      (hc : s.access c = .idle) (hview : t.row.view = s.row.view.localLock kind)
      (hacc : t.access = Function.update s.access c
        (if s.row.view.localLocks kind then .holding kind none none else .idle))
      (hframe : Frame s t) : ViewStep cfg s (.localLock c kind copy) t
  | remoteLock {t : RowSystem α C} {c : C} {kind : LockKind} {row : Ptr} {a : Access α}
      (hc : (s.access c).target = some row) (hcur : s.row.IsCurrent row) (ha : a.held = none)
      (hview : t.row.view = s.row.view.remoteLock kind)
      (hacc : t.access = Function.update s.access c
        (if s.row.view.remoteLocks kind then .holding kind (some row) none else a))
      (hframe : Frame s t) : ViewStep cfg s (.remoteLock c kind) t
  | remoteLockStale {t : RowSystem α C} {c : C} {kind : LockKind} {row : Ptr} {a : Access α}
      (hc : (s.access c).target = some row) (hstale : ¬ s.row.IsCurrent row)
      (ha : a.held = none ∨
        (s.row.sccOf row).valid = true ∧ a = .holding kind (some row) none)
      (hview : t.row.view = s.row.view) (hacc : t.access = Function.update s.access c a)
      (hframe : Frame s t) : ViewStep cfg s (.remoteLock c kind) t
  | update {t : RowSystem α C} {c : C} {via : Option Ptr} {written : Option α} {value : α}
      (hc : s.access c = .holding .write via written) (hvia : s.Current via)
      (hview : t.row.view = s.row.view.update value)
      (hacc : t.access = Function.update s.access c (.holding .write via (some value)))
      (hframe : Frame s t) : ViewStep cfg s (.update c value) t
  | updateStale {t : RowSystem α C} {c : C} {p : Ptr} {written : Option α} {value : α}
      (hc : s.access c = .holding .write (some p) written) (hstale : ¬ s.row.IsCurrent p)
      (hview : RowView.EditsShared (fun c => { c with data := value }) s.row.view t.row.view)
      (hacc : t.access = Function.update s.access c (.holding .write (some p) (some value)))
      (hframe : Frame s t) : ViewStep cfg s (.update c value) t
  | release {t : RowSystem α C} {c : C} {kind : LockKind} {via : Option Ptr}
      (hc : s.access c = .holding kind via none) (hvia : s.Current via)
      (hview : t.row.view = { s.row.view with lock := t.row.view.lock })
      (hlock : s.row.view.lock.held kind → t.row.view.lock = s.row.view.lock.release kind)
      (hacc : t.access = Function.update s.access c (.afterLock via))
      (hframe : Frame s t) : ViewStep cfg s (.release c) t
  | releaseStale {t : RowSystem α C} {c : C} {kind : LockKind} {p : Ptr}
      (hc : s.access c = .holding kind (some p) none) (hstale : ¬ s.row.IsCurrent p)
      (hview : t.row.view = s.row.view)
      (hacc : t.access = Function.update s.access c (.afterLock (some p)))
      (hframe : Frame s t) : ViewStep cfg s (.release c) t
  | releaseVersion {t : RowSystem α C} {c : C} {via : Option Ptr} {written : Option α}
      {new_value : Word} (hc : s.access c = .holding .write via written) (hvia : s.Current via)
      (hview : t.row.view = s.row.view.releaseVersion new_value)
      (hacc : t.access = Function.update s.access c (.afterLock via))
      (hlife : t.life = s.life) (hpayload : t.payload = written.getD s.payload)
      (hversion : t.version = new_value) : ViewStep cfg s (.releaseVersion c new_value) t
  | releaseVersionStale {t : RowSystem α C} {c : C} {p : Ptr} {written : Option α}
      {new_value : Word} (hc : s.access c = .holding .write (some p) written)
      (hstale : ¬ s.row.IsCurrent p)
      (hview : RowView.EditsShared (fun c => { c with version := remove_lock_bit new_value })
        s.row.view t.row.view)
      (hacc : t.access = Function.update s.access c (.afterLock (some p)))
      (hlife : t.life = s.life) : ViewStep cfg s (.releaseVersion c new_value) t
  | moveIn {t : RowSystem α C} {alloc : Allocation α} {inc : Bool} {p : Ptr} {fresh : α}
      (hm : s.row.view.migrated = false)
      (hfresh : cfg.ctx.enable_scc = true → s.row.view.allocated = true →
        fresh = s.row.view.shared.data)
      (hview : t.row.view
        = s.row.view.moveIn cfg.ctx.enable_migration_optimization p false false fresh)
      (hacc : t.access = s.access) (hframe : Frame s t) : ViewStep cfg s (.moveIn alloc inc) t
  | moveOut {t : RowSystem α C} (hm : s.row.view.migrated = true)
      (hview : t.row.view = s.row.view.moveOut cfg.ctx.enable_migration_optimization)
      (hacc : t.access = s.access) (hframe : Frame s t) : ViewStep cfg s .moveOut t
  | commitInsert {t : RowSystem α C} (hlife : s.life = .inserting false)
      (hview : t.row.view = s.row.view.setValid true) (hacc : t.access = s.access)
      (hlife' : t.life = .committed) (hpayload : t.payload = s.payload)
      (hversion : t.version = s.version) : ViewStep cfg s .commitInsert t
  | commitRemoteInsert {t : RowSystem α C} {c : C} {row : Ptr}
      (hc : s.access c = .inserted row) (hcur : s.row.IsCurrent row)
      (hview : t.row.view = s.row.view.setValid true)
      (hacc : t.access = Function.update s.access c (.referenced row))
      (hlife : t.life = .committed) (hpayload : t.payload = s.payload)
      (hversion : t.version = s.version) : ViewStep cfg s (.commitRemoteInsert c) t
  | commitRemoteInsertStale {t : RowSystem α C} {c : C} {row : Ptr}
      (hc : s.access c = .inserted row) (hstale : ¬ s.row.IsCurrent row)
      (hview : RowView.EditsShared (fun c => { c with valid := true }) s.row.view t.row.view)
      (hacc : t.access = Function.update s.access c (.referenced row))
      (hlife : t.life = .committed) (hpayload : t.payload = s.payload)
      (hversion : t.version = s.version) :
      ViewStep cfg s (.commitRemoteInsert c) t

section Cases

variable {cfg : Config C} {s t : RowSystem α C} {c : C} {kind : LockKind}

theorem viewStep_localLock {copy : Bool} (hwf : s.row.WellFormed)
    (h : s.localLock cfg c kind copy = some t) :
    ViewStep cfg s (.localLock c kind copy) t ∧ t.row.WellFormed := by
  rw [localLock] at h
  split at h
  · split at h
    · rename_i hidle
      cases h
      obtain ⟨hview, hok, -, -, hwf'⟩ := localLock_refines hwf kind copy cfg.owner
      refine ⟨.localLock hidle hview ?_ ⟨rfl, rfl, rfl⟩, hwf'⟩
      rw [← hok]
      rfl
    · cases h
  · cases h

theorem viewStep_search {how : Lookup} (hwf : s.row.WellFormed)
    (h : s.search cfg c how = some t) :
    ViewStep cfg s (.search c how) t ∧ t.row.WellFormed := by
  rw [search] at h
  split at h
  · cases h
  · split at h
    · rename_i row hidle _
      cases h
      exact ⟨.look (by rw [hidle]; rfl) (a := .searched row how) rfl rfl rfl ⟨rfl, rfl, rfl⟩, hwf⟩
    · cases h
      exact ⟨.keep rfl rfl ⟨rfl, rfl, rfl⟩, hwf⟩
    · cases h

theorem viewStep_getMigratedRow (hwf : s.row.WellFormed) (h : s.getMigratedRow c = some t) :
    ViewStep cfg s (.getMigratedRow c) t ∧ t.row.WellFormed := by
  rw [getMigratedRow] at h
  split at h
  · rename_i row inc hc
    cases h
    refine ⟨.look (c := c) (by rw [hc]; rfl) ?_ (view_get_migrated_row_latched _ row inc)
      rfl ⟨rfl, rfl, rfl⟩, wellFormed_get_migrated_row_latched row hwf inc⟩
    split <;> rfl
  · cases h

theorem viewStep_remoteLock_call {row : Ptr} {copy inc : Bool} {host : Host} {a : Access α}
    (hwf : s.row.WellFormed) (hc : (s.access c).target = some row) (ha : a.held = none)
    (h : t = { s with row := (RowState.remoteLock kind copy inc s.row host row).row }.setAccess c
      (if (RowState.remoteLock kind copy inc s.row host row).success then
        .holding kind (some row) none else a)) :
    ViewStep cfg s (.remoteLock c kind) t ∧ t.row.WellFormed := by
  subst h
  by_cases hcur : s.row.IsCurrent row
  · obtain ⟨hview, hok, -, -, hwf'⟩ :=
      remoteLock_refines hwf hcur kind copy inc host
    refine ⟨.remoteLock hc hcur ha hview ?_ ⟨rfl, rfl, rfl⟩, hwf'⟩
    rw [← hok]
    rfl
  · obtain ⟨hview, hwf'⟩ := remoteLock_stale hcur kind copy inc host
    refine ⟨.remoteLockStale hc hcur ?_ hview rfl ⟨rfl, rfl, rfl⟩, hwf' hwf⟩
    split
    · rename_i hok
      exact .inr ⟨RowState.valid_of_remoteLock hok, rfl⟩
    · exact .inl ha

section

variable (hwf : s.row.WellFormed)

include hwf

theorem viewStep_remoteLock (h : s.remoteLock cfg c kind = some t) :
    ViewStep cfg s (.remoteLock c kind) t ∧ t.row.WellFormed := by
  rw [remoteLock] at h
  split at h
  · rename_i row referenced hc
    cases h
    exact viewStep_remoteLock_call hwf (by rw [hc]; rfl) (by cases referenced <;> rfl) rfl
  · rename_i row hc
    cases h
    exact viewStep_remoteLock_call hwf (by rw [hc]; rfl) rfl rfl
  · cases h

theorem viewStep_update {value : α} (h : s.update c value = some t) :
    ViewStep cfg s (.update c value) t ∧ t.row.WellFormed := by
  rw [update] at h
  split at h
  · rename_i via written hc
    cases h
    cases via with
    | none =>
      obtain ⟨hview, hwf'⟩ := update_refines hwf value
      exact ⟨.update hc (by simp [Current]) hview rfl ⟨rfl, rfl, rfl⟩, hwf'⟩
    | some p =>
      by_cases hcur : s.row.IsCurrent p
      · obtain ⟨hview, hwf'⟩ := remote_update_refines hwf hcur value
        refine ⟨.update hc (by simpa [Current] using hcur) ?_ rfl ⟨rfl, rfl, rfl⟩, hwf'⟩
        have hmig : s.row.view.migrated = true := hcur.1
        rw [RowView.update, if_pos hmig]
        exact hview
      · obtain ⟨hview, hwf'⟩ := remote_update_stale hcur value
        exact ⟨.updateStale hc hcur hview rfl ⟨rfl, rfl, rfl⟩, hwf' hwf⟩
  · cases h

theorem viewStep_release (h : s.release c = some t) :
    ViewStep cfg s (.release c) t ∧ t.row.WellFormed := by
  rw [release] at h
  split at h
  · rename_i kind via hc
    cases h
    cases via with
    | none =>
      obtain ⟨hview, hlock, hwf'⟩ := lockRelease_refines kind hwf
      exact ⟨.release hc (by simp [Current]) hview hlock rfl ⟨rfl, rfl, rfl⟩, hwf'⟩
    | some p =>
      by_cases hcur : s.row.IsCurrent p
      · obtain ⟨hview, hlock, hwf'⟩ := remoteLockRelease_refines kind hwf hcur
        exact ⟨.release hc (by simpa [Current] using hcur) hview hlock rfl ⟨rfl, rfl, rfl⟩, hwf'⟩
      · obtain ⟨hview, hwf'⟩ := remoteLockRelease_stale kind hcur
        exact ⟨.releaseStale hc hcur hview rfl ⟨rfl, rfl, rfl⟩, hwf' hwf⟩
  · cases h

theorem viewStep_releaseVersion {new_value : Word} (h : s.releaseVersion cfg c new_value = some t) :
    ViewStep cfg s (.releaseVersion c new_value) t ∧ t.row.WellFormed := by
  rw [releaseVersion] at h
  split at h
  · rename_i via written hc
    rw [map_eq_some_iff] at h
    obtain ⟨r, hrel, rfl⟩ := h
    cases via with
    | none =>
      obtain ⟨hview, hwf'⟩ := write_lock_release_version_refines hwf hrel
      exact ⟨.releaseVersion hc (by simp [Current]) hview rfl rfl rfl rfl, hwf'⟩
    | some p =>
      by_cases hcur : s.row.IsCurrent p
      · obtain ⟨hview, hwf'⟩ :=
          remote_write_lock_release_version_refines hwf hcur hrel
        refine ⟨.releaseVersion hc (by simpa [Current] using hcur) ?_ rfl rfl rfl rfl, hwf'⟩
        have hmig : s.row.view.migrated = true := hcur.1
        rw [RowView.releaseVersion, if_pos hmig]
        exact hview
      · obtain ⟨hview, hwf'⟩ := remote_write_lock_release_version_stale hcur hrel
        exact ⟨.releaseVersionStale hc hcur hview rfl rfl, hwf' hwf⟩
  · cases h

theorem viewStep_searchReferenced (h : s.searchReferenced c = some t) :
    ViewStep cfg s (.searchReferenced c) t ∧ t.row.WellFormed := by
  rw [searchReferenced] at h
  split at h
  · rename_i p hc
    rw [map_eq_some_iff] at h
    obtain ⟨row, -, rfl⟩ := h
    exact ⟨.look (c := c) (by rw [hc]; rfl) (a := .releasing row) rfl rfl rfl ⟨rfl, rfl, rfl⟩, hwf⟩
  · cases h

theorem viewStep_dereference (h : s.dereference c = some t) :
    ViewStep cfg s (.dereference c) t ∧ t.row.WellFormed := by
  rw [dereference] at h
  split at h
  · rename_i row hc
    cases h
    exact ⟨.look (c := c) (by rw [hc]; rfl) (a := .idle) rfl
      (view_decrease_reference_count_via_ptr _ row) rfl ⟨rfl, rfl, rfl⟩,
      wellFormed_onScc hwf _⟩
  · rename_i row hc
    cases h
    exact ⟨.look (c := c) (by rw [hc]; rfl) (a := .idle) rfl
      (view_decrease_reference_count_via_ptr _ row) rfl ⟨rfl, rfl, rfl⟩,
      wellFormed_onScc hwf _⟩
  · cases h

theorem viewStep_moveIn {alloc : Allocation α} {inc : Bool} (h : s.moveIn cfg alloc inc = some t) :
    ViewStep cfg s (.moveIn alloc inc) t ∧ t.row.WellFormed := by
  rw [moveIn] at h
  split at h
  · rename_i hadmits
    rw [map_eq_some_iff] at h
    obtain ⟨⟨r, res⟩, hmove, rfl⟩ := h
    obtain ⟨hres, hwf'⟩ := moveIn_refines fields_id_of_not_real hwf
      (fun o d hscc => hadmits.2 (o, d) hscc) hmove
    cases hres with
    | success hm hp hfresh hview =>
      exact ⟨.moveIn hm hfresh hview rfl ⟨rfl, rfl, rfl⟩, hwf'⟩
    | already _ hview | outOfMemory hview => exact ⟨.keep hview rfl ⟨rfl, rfl, rfl⟩, hwf'⟩
  · cases h

theorem viewStep_moveOut (h : s.moveOut cfg = some t) :
    ViewStep cfg s .moveOut t ∧ t.row.WellFormed := by
  rw [moveOut] at h
  cases h
  obtain ⟨hview, hwf'⟩ := moveOut_refines cfg.ctx cfg.owner hwf
  rcases hview with ⟨hview, hm⟩ | hview
  · exact ⟨.moveOut hm hview rfl ⟨rfl, rfl, rfl⟩, hwf'⟩
  · exact ⟨.keep hview rfl ⟨rfl, rfl, rfl⟩, hwf'⟩

theorem viewStep_commitInsert (h : s.commitInsert cfg = some t) :
    ViewStep cfg s .commitInsert t ∧ t.row.WellFormed := by
  rw [commitInsert] at h
  split at h
  · rename_i hlife
    rw [map_eq_some_iff] at h
    obtain ⟨r, hmod, rfl⟩ := h
    obtain ⟨hview, hwf'⟩ := modify_tuple_valid_bit_refines hwf hmod
    exact ⟨.commitInsert hlife hview rfl rfl rfl rfl, hwf'⟩
  · cases h

theorem viewStep_searchInserted (h : s.searchInserted cfg c = some t) :
    ViewStep cfg s (.searchInserted c) t ∧ t.row.WellFormed := by
  rw [searchInserted] at h
  split at h
  · cases h
  · split at h
    · rename_i hidle _
      rw [map_eq_some_iff] at h
      obtain ⟨row, -, rfl⟩ := h
      exact ⟨.look (c := c) (by rw [hidle]; rfl) (a := .inserted row) rfl rfl rfl
        ⟨rfl, rfl, rfl⟩, hwf⟩
    · cases h

theorem viewStep_commitRemoteInsert (h : s.commitRemoteInsert cfg c = some t) :
    ViewStep cfg s (.commitRemoteInsert c) t ∧ t.row.WellFormed := by
  rw [commitRemoteInsert] at h
  split at h
  · rename_i row hc _
    rw [map_eq_some_iff] at h
    obtain ⟨r, hmod, rfl⟩ := h
    by_cases hcur : s.row.IsCurrent row
    · obtain ⟨hview, hwf'⟩ := remote_modify_tuple_valid_bit_refines hwf hcur hmod
      exact ⟨.commitRemoteInsert hc hcur hview rfl rfl rfl rfl, hwf'⟩
    · obtain ⟨hview, hwf'⟩ := remote_modify_tuple_valid_bit_stale hmod
      exact ⟨.commitRemoteInsertStale hc hcur hview rfl rfl rfl rfl, hwf' hwf⟩
  · cases h

end

end Cases

omit [DecidableEq C] in
theorem wellFormed_start (smeta : Ptr → TwoPLPashaMetadataShared)
    (scc : Word → TwoPLPashaSharedDataSCC α) (value : α) (life : Life) :
    (start smeta scc value life : RowSystem α C).row.WellFormed := by
  refine ⟨?_, ?_, rfl⟩
  · intro o ho
    cases ho
  · intro hm
    cases hm

theorem viewStep_of_step {cfg : Config C} {s t : RowSystem α C} {e : RowLabel α C}
    (hwf : s.row.WellFormed) (h : step cfg s e = some t) :
    ViewStep cfg s e t ∧ t.row.WellFormed := by
  cases e with
  | localLock c kind copy => exact viewStep_localLock hwf h
  | search c how => exact viewStep_search hwf h
  | getMigratedRow c => exact viewStep_getMigratedRow hwf h
  | remoteLock c kind => exact viewStep_remoteLock hwf h
  | update c value => exact viewStep_update hwf h
  | release c => exact viewStep_release hwf h
  | releaseVersion c new_value => exact viewStep_releaseVersion hwf h
  | searchReferenced c => exact viewStep_searchReferenced hwf h
  | dereference c => exact viewStep_dereference hwf h
  | moveIn alloc inc => exact viewStep_moveIn hwf h
  | moveOut => exact viewStep_moveOut hwf h
  | commitInsert => exact viewStep_commitInsert hwf h
  | searchInserted c => exact viewStep_searchInserted hwf h
  | commitRemoteInsert c => exact viewStep_commitRemoteInsert hwf h

omit [DecidableEq C] in
theorem lockCall_cases {cfg : Config C} {s : RowSystem α C} {e : RowLabel α C}
    {res : LockResult α} (h : s.lockCall cfg e = some res) :
    (∃ c kind, e = .localLock c kind (s.reads e) ∧
      res = RowState.localLock kind (s.reads e) s.row cfg.owner) ∨
    (∃ c kind inc row, e = .remoteLock c kind ∧ (s.access c).target = some row ∧
      res = RowState.remoteLock kind (s.reads e) inc s.row (cfg.host c) row) := by
  cases e with
  | localLock c kind copy =>
    refine .inl ⟨c, kind, rfl, ?_⟩
    cases kind <;> cases copy <;> exact (some.inj h).symm
  | remoteLock c kind =>
    simp only [lockCall] at h
    split at h
    · rename_i row referenced hc
      refine .inr ⟨c, .read, !referenced, row, rfl, by rw [hc]; rfl, ?_⟩
      simp only [reads, hc]
      exact (some.inj h).symm
    · rename_i row referenced hc
      refine .inr ⟨c, .write, !referenced, row, rfl, by rw [hc]; rfl, ?_⟩
      simp only [reads, hc]
      exact (some.inj h).symm
    · rename_i row hc
      refine .inr ⟨c, .read, true, row, rfl, by rw [hc]; rfl, ?_⟩
      simp only [reads, hc]
      exact (some.inj h).symm
    · rename_i row hc
      refine .inr ⟨c, .write, true, row, rfl, by rw [hc]; rfl, ?_⟩
      simp only [reads, hc]
      exact (some.inj h).symm
    · cases h
  | _ => cases h

end RowSystem

end Tigon.TwoPLPasha
