import Tigon.TwoPLPasha.RowSystem.MutualExclusion

namespace Tigon.TwoPLPasha

open Function RowView Tigon.Library

-- The payload a row stands for, told by its two copies: the shared one while the row is
-- migrated or the cached block is still good, the owner's unless the shared one was
-- written since.
structure RowView.DataAgrees {α : Type} (cur : α) (v : RowView α) : Prop where
  shared : v.migrated = true ∨ v.mod_out = false → v.shared.data = cur
  owner : v.mod_in = false → v.owner.data = cur
  mod_in : v.mod_in = true → v.migrated = true
  cached : v.migrated = true ∨ v.mod_out = false → v.allocated = true

namespace RowView

variable {α : Type} {cur : α} {v : RowView α}

namespace DataAgrees

section

variable (h : DataAgrees cur v)

include h

theorem refresh : DataAgrees cur v.refresh := by
  unfold RowView.refresh
  split
  · rename_i hin
    have hmig := h.mod_in ((Bool.and_eq_true _ _).mp hin).1
    exact ⟨h.shared, fun _ => h.shared (.inl hmig), nofun, h.cached⟩
  · exact h

theorem of_lock (l : LockView) : DataAgrees cur { v with lock := l } :=
  ⟨h.shared, h.owner, h.mod_in, h.cached⟩

theorem localLock (kind : LockKind) : DataAgrees cur (v.localLock kind) := by
  rw [RowView.localLock]
  split
  · exact h.refresh.of_lock _
  · exact h.refresh

theorem remoteLock (kind : LockKind) : DataAgrees cur (v.remoteLock kind) := by
  rw [RowView.remoteLock]
  split
  · exact h.of_lock _
  · exact h

theorem update (value : α) : DataAgrees value (v.update value) := by
  unfold RowView.update
  split
  · rename_i hm
    exact ⟨fun _ => rfl, nofun, fun _ => hm, h.cached⟩
  · rename_i hm
    refine ⟨?_, fun _ => rfl, h.mod_in, ?_⟩
    · rintro (hm' | hfalse)
      · exact absurd hm' hm
      · cases hfalse
    · rintro (hm' | hfalse)
      · exact absurd hm' hm
      · cases hfalse

theorem releaseVersion (new_value : Word) : DataAgrees cur (v.releaseVersion new_value) := by
  rw [RowView.releaseVersion]
  split
  · exact ⟨h.shared, h.owner, h.mod_in, h.cached⟩
  · exact ⟨h.shared, h.owner, h.mod_in, h.cached⟩

theorem setValid (is_valid : Bool) : DataAgrees cur (v.setValid is_valid) := by
  rw [RowView.setValid]
  split
  · exact ⟨h.shared, h.owner, h.mod_in, h.cached⟩
  · exact ⟨h.shared, h.owner, h.mod_in, h.cached⟩

-- A cached block is reused only with the data it had, so skipping the copy is safe when
-- the owner's copy was not written since the row was moved out.
theorem moveIn (hm : v.migrated = false) {fresh : α}
    (hfresh : v.allocated = true → fresh = v.shared.data) (optimize : Bool) (p : Ptr)
    (prev_real next_real : Bool) :
    DataAgrees cur (v.moveIn optimize p prev_real next_real fresh) := by
  have hin : v.mod_in = false := by
    cases hmod : v.mod_in with
    | false => rfl
    | true => exact absurd (h.mod_in hmod) (by simp [hm])
  refine ⟨fun _ => ?_, fun _ => h.owner hin, nofun, fun _ => rfl⟩
  cases hout : v.mod_out with
  | true => simpa [RowView.moveIn, hout] using h.owner hin
  | false =>
    have hshared := h.shared (.inr hout)
    have hreuse := hfresh (h.cached (.inr hout))
    cases optimize with
    | false => simpa [RowView.moveIn] using h.owner hin
    | true => simpa [RowView.moveIn, hout, hreuse] using hshared

theorem moveOut (hm : v.migrated = true) (optimize : Bool) :
    DataAgrees cur (v.moveOut optimize) := by
  refine ⟨fun _ => h.shared (.inl hm), fun _ => ?_, nofun,
    fun _ => h.cached (.inl hm)⟩
  cases hin : v.mod_in with
  | true => simpa [RowView.moveOut, hin] using h.shared (.inl hm)
  | false =>
    cases optimize with
    | false => simpa [RowView.moveOut] using h.shared (.inl hm)
    | true => simpa [RowView.moveOut, hin] using h.owner hin

end

end DataAgrees

end RowView

namespace RowSystem

variable {α C : Type} [DecidableEq C]

-- Every latched section through a pointer runs with the pointer that is in the CXL
-- index at that moment.
def UsesIndexedPointer (s : RowSystem α C) (e : RowLabel α C) : Prop :=
  ∀ c ∈ e.latched, ∀ p ∈ (s.access c).pointer, s.row.cxl = some p

omit [DecidableEq C] in
instance (s : RowSystem α C) (e : RowLabel α C) : Decidable (s.UsesIndexedPointer e) :=
  inferInstanceAs (Decidable (∀ c ∈ e.latched, ∀ p ∈ (s.access c).pointer, _))

-- The payload with the update of a writer that has not committed yet.
structure Pending (s : RowSystem α C) (cur : α) : Prop where
  written : ∀ c via v, s.access c = .holding .write via (some v) → cur = v
  payload : (∀ c via v, s.access c ≠ .holding .write via (some v)) → cur = s.payload

structure FreshInv (s : RowSystem α C) : Prop where
  lock : LockInv s
  fresh : ∃ cur, s.Pending cur ∧ s.row.view.DataAgrees cur

variable {cfg : Config C} {s t : RowSystem α C} {c : C} {e : RowLabel α C} {a : Access α}

theorem pointer_of_target {row : Ptr} (h : a.target = some row) : a.pointer = some row := by
  cases a with
  | searched row' how => cases how <;> first | exact h | cases h
  | pointed row' referenced => exact h
  | _ => cases h

omit [DecidableEq C] in
theorem locksThroughCurrent_of_indexed (hwf : s.row.WellFormed)
    (hok : s.UsesIndexedPointer e) : s.LocksThroughCurrent e := by
  cases e with
  | remoteLock c kind =>
    intro row hrow
    exact .inl (hwf.isCurrent_of_cxl (hok c rfl row (pointer_of_target hrow)))
  | _ => trivial

theorem written_iff_of_look (hc : ∀ via v, s.access c ≠ .holding .write via (some v))
    (ha : ∀ via v, a ≠ .holding .write via (some v)) (ht : t.access = Function.update s.access c a)
    (d : C) (via : Option Ptr) (v : α) :
    t.access d = .holding .write via (some v) ↔ s.access d = .holding .write via (some v) := by
  rw [ht]
  by_cases hd : d = c
  · subst hd
    simp [ha, hc]
  · simp [hd]

namespace Pending

variable {cur : α}

omit [DecidableEq C] in
theorem keep (h : s.Pending cur) (ht : t.access = s.access) (hp : t.payload = s.payload) :
    t.Pending cur := by
  refine ⟨fun c via v hc => h.written c via v (by rw [← ht]; exact hc), fun hnone => ?_⟩
  rw [hp]
  exact h.payload fun c via v hc => hnone c via v (by rw [ht]; exact hc)

theorem look {a : Access α} (h : s.Pending cur)
    (hc : ∀ via v, s.access c ≠ .holding .write via (some v))
    (ha : ∀ via v, a ≠ .holding .write via (some v))
    (ht : t.access = Function.update s.access c a) (hp : t.payload = s.payload) :
    t.Pending cur := by
  have hsame := written_iff_of_look hc ha ht
  refine ⟨fun d via v hd => h.written d via v ((hsame d via v).mp hd), fun hnone => ?_⟩
  rw [hp]
  exact h.payload fun d via v hd => hnone d via v ((hsame d via v).mpr hd)

theorem update {via : Option Ptr} {written : Option α} {value : α}
    (hacc : Accounts s.holder s.row.view.lock) (hc : s.access c = .holding .write via written)
    (ht : t.access = Function.update s.access c (.holding .write via (some value))) :
    t.Pending value := by
  refine ⟨fun d via' v hd => ?_, fun hnone => ?_⟩
  · by_cases hdc : d = c
    · subst hdc
      rw [ht, update_self] at hd
      cases hd
      rfl
    · rw [ht, update_of_ne hdc] at hd
      exact absurd (hacc.exclusive (by rw [holder, hc]; rfl) (by rw [holder, hd]; rfl)) hdc
  · exact absurd (by rw [ht]; simp) (hnone c via value)

theorem releaseVersion {via : Option Ptr} {written : Option α} (h : s.Pending cur)
    (hacc : Accounts s.holder s.row.view.lock) (hc : s.access c = .holding .write via written)
    (ht : t.access = Function.update s.access c (.afterLock via))
    (hp : t.payload = written.getD s.payload) : t.Pending cur := by
  have halone : ∀ d, d ≠ c → ∀ via' v, s.access d ≠ .holding .write via' (some v) := by
    intro d hdc via' v hd
    exact hdc (hacc.exclusive (by rw [holder, hc]; rfl) (by rw [holder, hd]; rfl))
  refine ⟨fun d via' v hd => ?_, fun _ => ?_⟩
  · by_cases hdc : d = c
    · subst hdc
      rw [ht, update_self] at hd
      cases via <;> cases hd
    · rw [ht, update_of_ne hdc] at hd
      exact absurd hd (halone d hdc via' v)
  · rw [hp]
    cases written with
    | some v => exact h.written c via v hc
    | none =>
      refine h.payload fun d via' v hd => ?_
      by_cases hdc : d = c
      · subst hdc
        rw [hc] at hd
        cases hd
      · exact halone d hdc via' v hd

end Pending

theorem ne_written_of_held (h : a.held = none) (via : Option Ptr) (v : α) :
    a ≠ .holding .write via (some v) := by
  rintro rfl
  cases h

theorem freshInv_step (hscc : cfg.ctx.enable_scc = true) (hinv : FreshInv s)
    (hok : s.UsesIndexedPointer e) (h : step cfg s e = some t) : FreshInv t := by
  obtain ⟨hlock, cur, hpend, hdata⟩ := hinv
  have hlock' := lockInv_step hlock (locksThroughCurrent_of_indexed hlock.wellFormed hok) h
  obtain ⟨hstep, -⟩ := viewStep_of_step hlock.wellFormed h
  -- a section through a pointer that is in the index is never stale
  have hcurrent : ∀ c ∈ e.latched, ∀ p ∈ (s.access c).pointer, s.row.IsCurrent p :=
    fun c hc p hp => hlock.wellFormed.isCurrent_of_cxl (hok c hc p hp)
  refine ⟨hlock', ?_⟩
  cases hstep with
  | keep hview ht hframe =>
    exact ⟨cur, hpend.keep ht hframe.payload, by rw [hview]; exact hdata⟩
  | look hc ha hview ht hframe =>
    exact ⟨cur, hpend.look (ne_written_of_held hc) (ne_written_of_held ha) ht hframe.payload,
      by rw [hview]; exact hdata⟩
  | localLock hc hview ht hframe =>
    refine ⟨cur, hpend.look (by rw [hc]; nofun) ?_ ht hframe.payload,
      by rw [hview]; exact hdata.localLock _⟩
    intro via v
    split <;> nofun
  | remoteLock hc _ ha hview ht hframe =>
    refine ⟨cur, hpend.look (ne_written_of_held (held_of_target hc)) ?_ ht hframe.payload,
      by rw [hview]; exact hdata.remoteLock _⟩
    intro via v
    split
    · nofun
    · exact ne_written_of_held ha via v
  | @remoteLockStale _ c _ row _ hc hstale _ _ _ _ =>
    exact absurd (hcurrent c rfl row (pointer_of_target hc)) hstale
  | update hc _ hview ht hframe =>
    exact ⟨_, Pending.update hlock.accounts hc ht, by rw [hview]; exact hdata.update _⟩
  | @updateStale _ c p _ _ hc hstale _ _ _ | @releaseStale _ c _ p hc hstale _ _ _
  | @releaseVersionStale _ c p _ _ hc hstale _ _ _ =>
    exact absurd (hcurrent c rfl p (by rw [hc]; rfl)) hstale
  | release hc _ hview _ ht hframe =>
    exact ⟨cur, hpend.look (by rw [hc]; nofun) (ne_written_of_held (held_afterLock _)) ht
      hframe.payload, by rw [hview]; exact hdata.of_lock _⟩
  | releaseVersion hc _ hview ht _ hpayload _ =>
    exact ⟨cur, hpend.releaseVersion hlock.accounts hc ht hpayload,
      by rw [hview]; exact hdata.releaseVersion _⟩
  | moveIn hm hfresh hview ht hframe =>
    exact ⟨cur, hpend.keep ht hframe.payload,
      by rw [hview]; exact hdata.moveIn hm (hfresh hscc) _ _ _ _⟩
  | moveOut hm hview ht hframe =>
    exact ⟨cur, hpend.keep ht hframe.payload, by rw [hview]; exact hdata.moveOut hm _⟩
  | commitInsert _ hview ht _ hpayload _ =>
    exact ⟨cur, hpend.keep ht hpayload, by rw [hview]; exact hdata.setValid _⟩
  | commitRemoteInsert hc _ hview ht _ hpayload _ =>
    exact ⟨cur, hpend.look (by rw [hc]; nofun) (ne_written_of_held rfl) ht hpayload,
      by rw [hview]; exact hdata.setValid _⟩
  | @commitRemoteInsertStale _ c row hc hstale _ _ _ _ _ =>
    exact absurd (hcurrent c rfl row (by rw [hc]; rfl)) hstale

omit [DecidableEq C] in
theorem freshInv_start (smeta : Ptr → TwoPLPashaMetadataShared)
    (scc : Word → TwoPLPashaSharedDataSCC α) (value : α) (life : Life) :
    FreshInv (start smeta scc value life : RowSystem α C) := by
  refine ⟨lockInv_start smeta scc value life, value, ⟨nofun, fun _ => rfl⟩,
    ⟨?_, fun _ => rfl, nofun, ?_⟩⟩
  · rintro (h | h) <;> cases h
  · rintro (h | h) <;> cases h

-- A free lock word has no writer behind it, so nothing is pending.
omit [DecidableEq C] in
theorem payload_of_free {cur : α} {kind : LockKind} (hacc : Accounts s.holder s.row.view.lock)
    (hpend : s.Pending cur) (hfree : s.row.view.lock.free 31 kind = true) : cur = s.payload := by
  refine hpend.payload fun c via v hc => ?_
  exact hacc.not_writer_of_free hfree c (by rw [holder, hc]; rfl)

-- Every lock-and-read that succeeds, through the owner's row or through a pointer that is
-- in the CXL index at that moment, returns the payload of the last committed update.
theorem lock_and_read_returns_payload (cfg : Config C) (hscc : cfg.ctx.enable_scc = true)
    (smeta : Ptr → TwoPLPashaMetadataShared) (scc : Word → TwoPLPashaSharedDataSCC α)
    (value : α) (life : Life) {s : RowSystem α C}
    (hreach : Reach (step cfg) UsesIndexedPointer (start smeta scc value life) s)
    {e : RowLabel α C} (hok : s.UsesIndexedPointer e) {res : LockResult α}
    (hcall : s.lockCall cfg e = some res) (hread : s.reads e = true)
    (hsuccess : res.success = true) : res.dest = some s.payload := by
  obtain ⟨hlock, cur, hpend, hdata⟩ := hreach.invariant (freshInv_start smeta scc value life)
    fun _ _ _ hinv hok h => freshInv_step hscc hinv hok h
  rcases lockCall_cases hcall with ⟨c, kind, -, rfl⟩ | ⟨c, kind, inc, row, rfl, htarget, rfl⟩
  · obtain ⟨-, hok', -, hdest, -⟩ :=
      RowState.localLock_refines hlock.wellFormed kind (s.reads e) cfg.owner
    rw [hsuccess] at hok'
    have hcur := payload_of_free hlock.accounts hpend (free_of_localLocks hok'.symm)
    rw [hdest, ← hok', hread, ← hcur]
    simp only [Bool.and_self, if_true]
    -- the owner reads the shared copy if it was modified, its own otherwise
    cases hin : s.row.view.mod_in with
    | true => simpa [ownerSees, hin] using hdata.shared (.inl (hdata.mod_in hin))
    | false => simpa [ownerSees, hin] using hdata.owner hin
  · have hcur := hlock.wellFormed.isCurrent_of_cxl (hok c rfl row (pointer_of_target htarget))
    obtain ⟨-, hok', -, hdest, -⟩ := RowState.remoteLock_refines hlock.wellFormed hcur kind
      (s.reads (.remoteLock c kind)) inc (cfg.host c)
    rw [hsuccess] at hok'
    have hpay := payload_of_free hlock.accounts hpend (free_of_remoteLocks hok'.symm)
    rw [hdest, ← hok', hread, ← hpay]
    simpa using hdata.shared (.inl hcur.1)

theorem owner_reads_remote_update :
    ∃ s : RowSystem Nat (Fin 2), Reach (step (twoHosts sccOn)) UsesIndexedPointer loaded s ∧
      s.payload = 9 ∧ (s.row.take_read_lock_and_read 0).dest = some 9 := by
  obtain ⟨s, hreach, hpayload, hsuccess⟩ := exists_reach_of_run (step (twoHosts sccOn))
    UsesIndexedPointer loaded
    [.moveIn ⟨some 1, some (64, zeroed)⟩ false, .search 0 (.point true), .getMigratedRow 0,
      .remoteLock 0 .write, .update 0 9, .releaseVersion 0 5]
    (fun s => s.payload = 9 ∧ (s.row.take_read_lock_and_read 0).success = true) (by decide)
  refine ⟨s, hreach, hpayload, ?_⟩
  rw [← hpayload]
  exact lock_and_read_returns_payload (twoHosts sccOn) rfl _ _ _ _ hreach
    (e := .localLock 1 .read true) (by nofun) rfl rfl hsuccess

end RowSystem

end Tigon.TwoPLPasha
