import Tigon.TwoPLPasha.RowSystem.Steps

namespace Tigon.TwoPLPasha

open RowView Tigon.Library

namespace RowSystem

variable {α C : Type} [DecidableEq C]

-- A remote lock call goes through the pointer the row has at that moment, or finds
-- the shared valid flag clear.
def LocksThroughCurrent (s : RowSystem α C) : RowLabel α C → Prop
  | .remoteLock c _ => ∀ row ∈ (s.access c).target,
      s.row.IsCurrent row ∨
        (s.row.sccOf row).get_flag TwoPLPashaSharedDataSCC.valid_flag_index = false
  | _ => True

omit [DecidableEq C] in
instance (s : RowSystem α C) (e : RowLabel α C) : Decidable (s.LocksThroughCurrent e) := by
  cases e <;> unfold LocksThroughCurrent <;> infer_instance

structure LockInv (s : RowSystem α C) : Prop where
  wellFormed : s.row.WellFormed
  accounts : Accounts s.holder s.row.view.lock

variable {cfg : Config C} {s t : RowSystem α C} {c : C} {e : RowLabel α C} {a : Access α}

theorem holder_of_access (h : t.access = Function.update s.access c a) :
    t.holder = Function.update s.holder c a.held := by
  funext d
  rw [holder, h]
  by_cases hd : d = c
  · subst hd
    simp
  · simp [hd, holder]

omit [DecidableEq C] in
theorem holder_of_access_eq (h : t.access = s.access) : t.holder = s.holder := by
  funext d
  rw [holder, h, holder]

theorem holder_of_look (h : t.access = Function.update s.access c a) (hc : (s.access c).held = none)
    (ha : a.held = none) : t.holder = s.holder := by
  rw [holder_of_access h, ha]
  exact Function.update_eq_self_iff.mpr hc.symm

theorem held_afterLock (via : Option Ptr) : (Access.afterLock via : Access α).held = none := by
  cases via <;> rfl

theorem held_of_target {row : Ptr} (h : a.target = some row) : a.held = none := by
  cases a with
  | holding kind via written => cases h
  | _ => rfl

theorem accounts_of_lock {kind : LockKind} {b : Access α} {ok : Bool} {l l' : LockView}
    (hacc : Accounts s.holder l) (hc : (s.access c).held = none) (ha : a.held = some kind)
    (hb : b.held = none) (hfree : ok = true → l.free 31 kind = true)
    (hl : l' = if ok then l.acquire kind else l)
    (ht : t.access = Function.update s.access c (if ok then a else b)) : Accounts t.holder l' := by
  cases ok with
  | true =>
    rw [holder_of_access ht, hl, if_pos rfl, if_pos rfl, ha]
    exact hacc.acquire (hfree rfl) hc
  | false =>
    rw [holder_of_look ht hc hb, hl]
    exact hacc

theorem lockInv_step (hinv : LockInv s) (hok : s.LocksThroughCurrent e)
    (h : step cfg s e = some t) : LockInv t := by
  obtain ⟨hwf, hacc⟩ := hinv
  obtain ⟨hstep, hwf'⟩ := viewStep_of_step hwf h
  refine ⟨hwf', ?_⟩
  cases hstep with
  | keep hview ht _ | moveIn _ _ hview ht _ | moveOut _ hview ht _ =>
    rw [holder_of_access_eq ht, hview]
    exact hacc
  | look hc ha hview ht _ =>
    rw [holder_of_look ht hc ha, hview]
    exact hacc
  | localLock hc hview ht _ =>
    exact accounts_of_lock hacc (by rw [hc]; rfl) rfl rfl free_of_localLocks
      (by rw [hview, lock_localLock]) ht
  | remoteLock hc _ ha hview ht _ =>
    exact accounts_of_lock hacc (held_of_target hc) rfl ha free_of_remoteLocks
      (by rw [hview, lock_remoteLock]) ht
  | @remoteLockStale _ c _ row a hc hstale ha hview ht _ =>
    -- the condition leaves only the failing attempt
    have hnone : a.held = none := by
      rcases ha with ha | ⟨hvalid, -⟩
      · exact ha
      · rcases hok row hc with hcur | hinvalid
        · exact absurd hcur hstale
        · exact absurd (hvalid.symm.trans hinvalid) (by decide)
    rw [holder_of_look ht (held_of_target hc) hnone, hview]
    exact hacc
  | update hc _ hview ht _ =>
    have hsame : t.holder = s.holder := by
      rw [holder_of_access ht]
      exact Function.update_eq_self_iff.mpr (by rw [holder, hc]; rfl)
    rw [hsame, hview, lock_update]
    exact hacc
  | updateStale hc _ hview ht _ =>
    have hsame : t.holder = s.holder := by
      rw [holder_of_access ht]
      exact Function.update_eq_self_iff.mpr (by rw [holder, hc]; rfl)
    rw [hsame, hview.lock]
    exact hacc
  | @release _ c kind _ hc _ _ hlock ht _ =>
    have hholds : s.holder c = some kind := by rw [holder, hc]; rfl
    rw [holder_of_access ht, held_afterLock, hlock (hacc.held hholds)]
    exact hacc.release hholds
  | releaseStale hc _ hview ht _ =>
    rw [holder_of_access ht, held_afterLock, hview]
    exact hacc.release_elsewhere (by rw [holder, hc]; rfl)
  | releaseVersion hc _ hview ht _ _ _ | releaseVersionStale hc _ hview ht _ =>
    rw [holder_of_access ht, held_afterLock]
    exact hacc.release_write (by rw [holder, hc]; rfl) _
  | commitInsert _ hview ht _ _ _ =>
    rw [holder_of_access_eq ht, hview, lock_setValid]
    exact hacc
  | commitRemoteInsert hc _ hview ht _ _ _ =>
    rw [holder_of_look ht (by rw [hc]; rfl) rfl, hview, lock_setValid]
    exact hacc
  | commitRemoteInsertStale hc _ hview ht _ _ _ =>
    have hsame : t.holder = s.holder := holder_of_look ht (by rw [hc]; rfl) rfl
    rw [hsame, hview.lock]
    exact hacc

omit [DecidableEq C] in
theorem lockInv_start (smeta : Ptr → TwoPLPashaMetadataShared)
    (scc : Word → TwoPLPashaSharedDataSCC α) (value : α) (life : Life) :
    LockInv (start smeta scc value life : RowSystem α C) :=
  ⟨wellFormed_start smeta scc value life, Accounts.none _⟩

theorem lockInv_of_reach {smeta : Ptr → TwoPLPashaMetadataShared}
    {scc : Word → TwoPLPashaSharedDataSCC α} {value : α} {life : Life}
    (hreach : Reach (step cfg) LocksThroughCurrent (start smeta scc value life) s) :
    LockInv s :=
  hreach.invariant (lockInv_start smeta scc value life)
    fun _ _ _ hinv hok h => lockInv_step hinv hok h

-- Whatever the transactions, hosts and moves: as long as remote lock calls go through
-- the row's current pointer, nobody shares a row with a writer.
theorem write_lock_excludes_others {T : Type} (cfg : Config C) (txn : C → T)
    (smeta : Ptr → TwoPLPashaMetadataShared) (scc : Word → TwoPLPashaSharedDataSCC α)
    (value : α) (life : Life) {s : RowSystem α C}
    (hreach : Reach (step cfg) LocksThroughCurrent (start smeta scc value life) s)
    {c d : C} {kind : LockKind} (hne : txn c ≠ txn d) (hc : s.Holds c .write) :
    ¬ s.Holds d kind := by
  intro hd
  have hdc : d = c := (lockInv_of_reach hreach).accounts.exclusive hc hd
  exact hne (congrArg txn hdc.symm)

section Example

def twoHosts (ctx : Context) : Config (Fin 2) where
  ctx := ctx
  owner := 0
  host := fun c => if c = 0 then 1 else 0

def zeroed : TwoPLPashaSharedDataSCC Nat := ⟨0, 0, 0, 0⟩

def loaded : RowSystem Nat (Fin 2) := start (fun _ => ⟨0⟩) (fun _ => zeroed) 7 .committed

def sccOn : Context := ⟨true, true⟩

theorem write_lock_excludes_others_loaded :
    ∃ s : RowSystem Nat (Fin 2), Reach (step (twoHosts sccOn)) LocksThroughCurrent loaded s ∧
      s.Holds 0 .write ∧ ¬ s.Holds 1 .read := by
  obtain ⟨s, hreach, hholds⟩ := exists_reach_of_run (step (twoHosts sccOn)) LocksThroughCurrent
    loaded [.moveIn ⟨some 1, some (64, zeroed)⟩ false, .search 0 (.point true), .getMigratedRow 0,
      .remoteLock 0 .write, .localLock 1 .read true]
    (fun s => s.Holds 0 .write) (by decide)
  exact ⟨s, hreach, hholds, write_lock_excludes_others (twoHosts sccOn) id _ _ _ _ hreach
    (by decide) hholds⟩

-- Request 0 looks the row up, the owner moves it out and in again, and the valid flag of
-- the reused SCC block lets the old pointer pass: two writers.
theorem stale_pointer_two_writers :
    ∃ s : RowSystem Nat (Fin 2), Reach (step (twoHosts sccOn)) (fun _ _ => True) loaded s ∧
      s.Holds 0 .write ∧ s.Holds 1 .write :=
  exists_reach_of_run _ _ _
    [.moveIn ⟨some 1, some (64, zeroed)⟩ false, .search 0 (.point true), .moveOut,
      .moveIn ⟨some 2, none⟩ false, .getMigratedRow 0, .remoteLock 0 .write,
      .localLock 1 .write true] _ (by decide)

end Example

end RowSystem

end Tigon.TwoPLPasha
