import Tigon.TwoPLPasha.CachedSystem.Calls

namespace Tigon.TwoPLPasha

open Function Option RowState RowSystem RowView Tigon.Library

namespace CachedSystem

variable {α C : Type} [DecidableEq C]

structure Outcome (cfg : Config C) (s : CachedSystem α C) (e : CachedLabel α C)
    (t : CachedSystem α C) : Prop where
  step : CachedStep cfg s e t
  lock : RowSystem.LockInv t.base
  known : RowSystem.Known cfg t.base

section Lock

variable {cfg : Config C} {s s' : CachedSystem α C} {c : C} {kind : LockKind}
  (hlock : RowSystem.LockInv s.base) (hknown : RowSystem.Known cfg s.base)

omit [DecidableEq C] in
theorem unchanged_of_scc {t : RowSystem α C} (hscc : t.row.scc = s.base.row.scc)
    (hblock : t.row.lmeta.scc_data = s.base.row.lmeta.scc_data)
    (hplace : s.base.row.view.StaysPut t.row.view)
    (hin : t.row.view.mod_in = s.base.row.view.mod_in) (hdata : t.row.data = s.base.row.data)
    (hbit : s.base.row.view.migrated = true →
      ∀ h, t.row.current.scc_bit h = s.base.row.current.scc_bit h) :
    Unchanged s (s.onBase t) := by
  refine ⟨hplace, hin, hdata, fun h => ?_, ?_, hbit⟩
  · simp only [seen, line, block, onBase, hscc, hblock]
  · simp only [memory, line, block, onBase, hscc, hblock]

omit [DecidableEq C] in
theorem unchanged_tid {t : RowSystem α C} {tid : Word}
    (hrow : t.row = { s.base.row with lmeta := { s.base.row.lmeta with tid := tid } }) :
    Unchanged s (s.onBase t) := by
  refine unchanged_of_scc ?_ ?_ ?_ ?_ ?_ ?_
  · rw [hrow]
  · rw [hrow]
  · rw [hrow]
    exact ⟨rfl, rfl, rfl, rfl, rfl⟩
  · rw [hrow]
    rfl
  · rw [hrow]
  · intro _ h
    rw [hrow]
    rfl

include hlock hknown

theorem outcome_localLock [DecidableEq α] {copy : Bool}
    (h : s.step cfg (.row (.localLock c kind copy)) = some s') :
    Outcome cfg s (.row (.localLock c kind copy)) s' := by
  rcases after_owned hlock.wellFormed h with ⟨hm, d, t, hd, ht, hafter⟩ | ⟨hm, t, ht, rfl⟩
  · obtain ⟨hc, hrow, hacc, hpayload, hallocated⟩ := localLock_eq_some ht
    have hlockb := hlock.withBlock s.block d
    have hlockt : RowSystem.LockInv t :=
      lockInv_step (e := .localLock c kind copy) hlockb trivial ht
    have hview : t.row.view =
        localLock kind { s.base.row.view with shared := copyOf d } := by
      rw [hrow, (localLock_refines hlockb.wellFormed kind copy cfg.owner).view,
        view_withBlock]
    have hbits := setsBits_localLock (r := (s.base.withBlock s.block d).row) hm kind copy
      cfg.owner
    rw [← hrow] at hbits
    have hafter := hafter hbits.scc_data
    have hplace : s.base.row.view.StaysPut t.row.view := by
      rw [hview, localLock_frame]
      exact ⟨rfl, rfl, rfl, rfl, rfl⟩
    refine ⟨.ownerLock (hafter.workedOn hm hplace) ?_ ?_ ?_ hc (hafter.access.trans hacc)
      (hafter.payload.trans hpayload) hafter.unpublished, hafter.lockInv hlockt,
      hafter.known (hknown.of_access hplace.cxl hallocated hacc ?_)⟩
    · rw [hafter.seen_self, hview, localLock_frame]
      exact hd
    · intro h'
      rw [hafter.bit, hbits.bits]
      rfl
    · rw [hafter.view, hafter.data]
      have hdata : t.row.data = t.row.view.owner.data := rfl
      rw [hdata, hview]
      rcases localLock_copies { s.base.row.view with shared := copyOf d } kind with
        ⟨hin, howner⟩ | ⟨hin, howner⟩
      · refine .inl ⟨hin, ?_⟩
        rw [howner]
        rfl
      · refine .inr ⟨hin, ?_⟩
        rw [howner]
        exact hd
    · split <;> nofun
  · obtain ⟨hc, hrow, hacc, hpayload, hallocated⟩ := localLock_eq_some ht
    have hlockt : RowSystem.LockInv t :=
      lockInv_step (e := .localLock c kind copy) hlock trivial ht
    obtain ⟨tid, htid⟩ := localLock_unmigrated hm kind copy cfg.owner
    have hsame := unchanged_tid (hrow.trans htid)
    refine ⟨.localLock hm hsame hc hacc hpayload rfl, hlockt,
      hknown.of_access hsame.place.cxl hallocated hacc ?_⟩
    split <;> nofun

theorem outcome_remoteLock [DecidableEq α]
    (hok : s.base.UsesIndexedPointer (.remoteLock c kind))
    (h : s.step cfg (.row (.remoteLock c kind)) = some s') :
    Outcome cfg s (.row (.remoteLock c kind)) s' := by
  have hvia : s.base.Current (s.base.access c).pointer := fun p hp =>
    hlock.wellFormed.isCurrent_of_cxl (hok c rfl p hp)
  rcases after_through hlock.wellFormed hvia h with ⟨hm, d, t, hd, ht, hafter⟩ | ⟨hp, -, t, ht, -⟩
  · obtain ⟨copy, inc, p, a, htarget, ha, hpointer, hrow, hacc, hpayload, hallocated⟩ :=
      remoteLock_eq_some ht
    have hp : (s.base.access c).pointer = some p := pointer_of_target htarget
    have hcur := hvia p hp
    rw [hp] at hd hafter
    have hlockb := hlock.withBlock s.block d
    have hlockt : RowSystem.LockInv t := lockInv_step (e := .remoteLock c kind) hlockb
      (locksThroughCurrent_of_indexed hlockb.wellFormed hok) ht
    have hview : t.row.view =
        remoteLock kind { s.base.row.view with shared := copyOf d } := by
      rw [hrow, (remoteLock_refines hlockb.wellFormed hcur kind copy inc (cfg.host c)).view,
        view_withBlock]
    have hbits := setsBits_remoteLock (r := (s.base.withBlock s.block d).row) hcur.2 kind
      copy inc (cfg.host c)
    rw [← hrow] at hbits
    have hafter := hafter hbits.scc_data
    have hplace : s.base.row.view.StaysPut t.row.view := by
      rw [hview, remoteLock_frame]
      exact ⟨rfl, rfl, rfl, rfl, rfl⟩
    refine ⟨.remoteLock (hafter.workedOn hm hplace) ?_ ?_ ?_ ?_
      (held_of_target htarget) ha (hafter.access.trans hacc)
      (hafter.payload.trans hpayload) hafter.unpublished, hafter.lockInv hlockt,
      hafter.known (hknown.of_access hplace.cxl hallocated hacc fun q hq => ?_)⟩
    · have hself := hafter.seen_self
      rw [hview, remoteLock_frame] at hself
      exact hself.trans hd
    · intro h'
      rw [hafter.bit, hbits.bits]
      rfl
    · rw [hafter.view, hview, remoteLock_frame]
    · have hdata : t.row.data = t.row.view.owner.data := rfl
      rw [hafter.data, hdata, hview, remoteLock_frame]
      rfl
    · have hqp : q = p := by
        split at hq
        · exact (some.inj hq).symm
        · exact hpointer q hq
      subst hqp
      exact hknown.pointer c q hp
  · obtain ⟨-, -, p, -, htarget, -⟩ := remoteLock_eq_some ht
    exact absurd (pointer_of_target htarget) (by rw [hp]; nofun)

end Lock

section Update

variable {cfg : Config C} {s s' : CachedSystem α C} {c : C}
  (hlock : RowSystem.LockInv s.base) (hknown : RowSystem.Known cfg s.base)
  (hvia : s.base.Current (s.base.access c).pointer)

include hlock hknown hvia

theorem outcome_update {e : CachedLabel α C} {value : α}
    {f : RowSystem α C → Option (RowSystem α C)}
    (hf : ∀ b t, f b = some t → ∃ x, (b.withData x).update c value = some t)
    (h : s.through cfg c false false f = some s') : Outcome cfg s e s' := by
  rcases after_through hlock.wellFormed hvia h with
    ⟨hm, d, t, -, ht, hafter⟩ | ⟨hp, hm, t, ht, rfl⟩
  · obtain ⟨x, ht⟩ := hf _ _ ht
    obtain ⟨via, written, hc, hrow, hacc, hpayload, hallocated⟩ := update_eq_some ht
    have hc : s.base.access c = .holding .write via written := hc
    rw [hc] at hvia hafter
    have hlockb := (hlock.withBlock s.block d).withData x
    have hlockt : RowSystem.LockInv t :=
      @RowSystem.lockInv_step _ _ _ cfg _ _ (.update c value) hlockb trivial ht
    have hcur : ((s.base.withBlock s.block d).withData x).row.IsCurrent
      s.base.row.lmeta.migrated_row := ⟨hm, rfl⟩
    have hrow : t.row = ((s.base.withBlock s.block d).withData x).row.remote_update
        s.base.row.lmeta.migrated_row value := by
      cases via with
      | none =>
        rw [hrow]
        exact if_neg (by rw [hcur.1]; decide)
      | some p =>
        rw [hrow, (hvia p rfl).2]
    have hview := (remote_update_refines hlockb.wellFormed hcur value).1
    have hbits := setsBits_remote_update hcur.2 value
    rw [← hrow] at hbits hview
    have hafter := hafter hbits.scc_data
    have hplace : s.base.row.view.StaysPut t.row.view := by
      rw [hview]
      exact ⟨rfl, rfl, rfl, rfl, rfl⟩
    refine ⟨.update (hafter.workedOn hm hplace) ?_ ?_ ?_ hc hvia (hafter.access.trans hacc)
      (hafter.payload.trans hpayload) hafter.unpublished, hafter.lockInv hlockt,
      hafter.known (hknown.of_access hplace.cxl hallocated hacc fun p hp => ?_)⟩
    · have hself := hafter.seen_self
      rw [hview] at hself
      exact hself
    · intro h'
      rw [hafter.bit, hbits.bits]
      rfl
    · rw [hafter.view, hview]
      rfl
    · exact hknown.pointer c p (by rw [hc]; exact hp)
  · obtain ⟨x, ht⟩ := hf _ _ ht
    obtain ⟨via, written, hc, hrow, hacc, hpayload, hallocated⟩ := update_eq_some ht
    have hc : s.base.access c = .holding .write via written := hc
    rw [hc] at hp
    cases hp
    have hlockt : RowSystem.LockInv t := @RowSystem.lockInv_step _ _ _ cfg _ _ (.update c value)
      (hlock.withData x) trivial ht
    have hupdate : t.row = { s.base.row with
        data := value
        lmeta := { s.base.row.lmeta with is_data_modified_since_moved_out := true } } :=
      hrow.trans (if_pos hm)
    refine ⟨.updateLocal hm ?_ ?_ ?_ hc hacc hpayload rfl, hlockt,
      hknown.of_access ?_ hallocated hacc nofun⟩
    · simp only [onBase, hupdate]
      exact hm
    · simp only [onBase, hupdate]
    · simp only [onBase, hupdate]
      rfl
    · simp only [onBase, hupdate]
      rfl

theorem outcome_releaseVersion {new_value : Word}
    (h : s.through cfg c false true (fun b => b.releaseVersion cfg c new_value) = some s') :
    Outcome cfg s (.row (.releaseVersion c new_value)) s' := by
  rcases after_through hlock.wellFormed hvia h with
    ⟨hm, d, t, hd, ht, hafter⟩ | ⟨hp, hm, t, ht, rfl⟩
  · obtain ⟨via, written, hc, hrow, hacc, hpayload, hallocated⟩ :=
      releaseVersion_eq_some ht
    have hc : s.base.access c = .holding .write via written := hc
    rw [hc] at hvia hafter hd
    have hlockb := hlock.withBlock s.block d
    have hlockt : RowSystem.LockInv t :=
      @RowSystem.lockInv_step _ _ _ cfg _ _ (.releaseVersion c new_value) hlockb trivial ht
    have hrow : (s.base.withBlock s.block d).row.remote_write_lock_release_version
        (hostOf cfg c via) s.base.row.lmeta.migrated_row new_value = some t.row := by
      cases via with
      | none =>
        have hmb : (s.base.withBlock s.block d).row.lmeta.is_migrated = true := hm
        exact (if_neg (by simp [hmb])).symm.trans hrow
      | some p =>
        rw [(hvia p rfl).2]
        exact hrow
    have hview := (remote_write_lock_release_version_refines hlockb.wellFormed ⟨hm, rfl⟩
      hrow).1
    have hbits := setsBits_remote_write_lock_release_version rfl hrow
    have hafter := hafter hbits.scc_data
    rw [view_withBlock] at hview
    have hplace : s.base.row.view.StaysPut t.row.view := by
      rw [hview]
      exact ⟨rfl, rfl, rfl, rfl, rfl⟩
    have hshared : t.row.view.shared.data = s.seen (hostOf cfg c via) := by
      rw [hview]
      exact hd
    refine ⟨.releaseVersion hm ?_ ?_ ?_ (hafter.seen_self.trans hshared)
      (hafter.memory.trans hshared)
      ?_ hc hvia (hafter.access.trans hacc) (hafter.payload.trans hpayload) hafter.unpublished,
      hafter.lockInv hlockt,
      hafter.known (hknown.of_access hplace.cxl hallocated hacc fun p hp => ?_)⟩
    · rw [hafter.view]
      exact ⟨hplace.migrated, hplace.row, hplace.cxl, hplace.mod_out, hplace.allocated⟩
    · rw [hafter.view, hview]
      rfl
    · have hdata : t.row.data = t.row.view.owner.data := rfl
      rw [hafter.data, hdata, hview]
      rfl
    · intro h'
      rw [hafter.bit, hbits.bits]
      rfl
    · refine hknown.pointer c p ?_
      rw [hc]
      cases via <;> exact hp
  · obtain ⟨via, written, hc, hrow, hacc, hpayload, hallocated⟩ :=
      releaseVersion_eq_some ht
    rw [hc] at hp
    cases hp
    have hlockt : RowSystem.LockInv t :=
      @RowSystem.lockInv_step _ _ _ cfg _ _ (.releaseVersion c new_value) hlock trivial ht
    have hsame : Unchanged s (s.onBase t) :=
      unchanged_tid (some.inj (hrow.symm.trans (if_pos hm)))
    exact ⟨.releaseVersionLocal hm hsame hc hacc hpayload rfl, hlockt,
      hknown.of_access hsame.place.cxl hallocated hacc nofun⟩

end Update

section Release

variable {cfg : Config C} {s s' : CachedSystem α C} {c : C}

omit [DecidableEq C] in
theorem unchanged_release {t : RowSystem α C} {kind : LockKind} {via : Option Ptr}
    (hrow : t.row = match via with
      | none => s.base.row.lockRelease kind
      | some p => s.base.row.remoteLockRelease kind p)
    (hwf : s.base.row.WellFormed) (hvia : s.base.Current via)
    (hheld : s.base.row.view.lock.held kind) : Unchanged s (s.onBase t) := by
  cases hm : s.base.row.lmeta.is_migrated with
  | false =>
    have hnone : via = none := by
      cases via with
      | none => rfl
      | some p => exact absurd (hvia p rfl).1 (by simp [hm])
    subst hnone
    cases kind with
    | read | write => exact unchanged_tid (hrow.trans (if_pos hm))
  | true =>
    have hrow : t.row = s.base.row.remoteLockRelease kind s.base.row.lmeta.migrated_row := by
      cases via with
      | none =>
        rw [hrow]
        cases kind with
        | read | write => exact if_neg (by simp [hm])
      | some p => rw [hrow, (hvia p rfl).2]
    have hview := (remoteLockRelease_refines kind hwf ⟨hm, rfl⟩).view
    rw [view_lock_of_current hm] at hheld
    have hbits := setsBits_remoteLockRelease rfl hheld
    rw [← hrow] at hview hbits
    refine unchanged_of_scc ?_ hbits.scc_data ?_ ?_ ?_ fun _ => hbits.bits
    · rw [hrow]
      cases kind <;> rfl
    · rw [hview]
      exact ⟨rfl, rfl, rfl, rfl, rfl⟩
    · rw [hview]
    · have hdata : t.row.data = t.row.view.owner.data := rfl
      rw [hdata, hview]
      rfl

variable (hlock : RowSystem.LockInv s.base) (hknown : RowSystem.Known cfg s.base)
  (hvia : s.base.Current (s.base.access c).pointer)

include hlock hknown hvia

theorem outcome_release (h : (s.base.release c).map s.onBase = some s') :
    Outcome cfg s (.row (.release c)) s' := by
  obtain ⟨t, ht, rfl⟩ := map_eq_some_iff.mp h
  obtain ⟨kind, via, hc, hrow, hacc, hpayload, hallocated⟩ := release_eq_some ht
  have hlockt : RowSystem.LockInv t :=
    @RowSystem.lockInv_step _ _ _ cfg _ _ (.release c) hlock trivial ht
  rw [hc] at hvia
  have hholds : s.base.holder c = some kind := by rw [holder, hc]; rfl
  have hsame := unchanged_release hrow hlock.wellFormed hvia (hlock.accounts.held hholds)
  refine ⟨.release hsame hc hacc hpayload rfl, hlockt,
    hknown.of_access hsame.place.cxl hallocated hacc fun p hp => ?_⟩
  refine hknown.pointer c p ?_
  rw [hc]
  cases via <;> exact hp

theorem outcome_releaseScan (h : s.releaseScan cfg c = some s') :
    Outcome cfg s (.releaseScan c) s' := by
  obtain ⟨b, hb, rfl⟩ := map_eq_some_iff.mp h
  rw [RowSystem.releaseScan] at hb
  split at hb
  · rename_i via value hc
    obtain ⟨t, ht, rfl⟩ := map_eq_some_iff.mp hb
    obtain ⟨kind, via', hc', hrow, hacc, hpayload, hallocated⟩ := release_eq_some ht
    have hself : (s.base.setAccess c (.holding .write via none)).access c
        = .holding .write via none := update_self ..
    rw [hself] at hc'
    cases hc'
    have hholder : (s.base.setAccess c (.holding .write via none)).holder = s.base.holder := by
      rw [holder_of_access rfl]
      exact update_eq_self_iff.mpr (by rw [holder, hc]; rfl)
    have hlockb : RowSystem.LockInv (s.base.setAccess c (.holding .write via none)) :=
      ⟨hlock.wellFormed, by rw [hholder]; exact hlock.accounts⟩
    have hlockt : RowSystem.LockInv t :=
      @RowSystem.lockInv_step _ _ _ cfg _ _ (.release c) hlockb trivial ht
    have hacc : t.access = update s.base.access c (.afterLock via) := by
      rw [hacc]
      exact update_idem ..
    have hholds : s.base.holder c = some .write := by rw [holder, hc]; rfl
    rw [hc] at hvia
    have hsame := unchanged_release hrow hlock.wellFormed hvia (hlock.accounts.held hholds)
    refine ⟨.releaseScan ⟨hsame.place, hsame.mod_in, hsame.data, hsame.seen, hsame.memory,
      hsame.bit⟩ hc hvia hacc rfl ?_, ⟨hlockt.wellFormed, hlockt.accounts⟩, ?_⟩
    · rw [hc]
      rfl
    · have hknown : RowSystem.Known cfg t := by
        refine hknown.of_access hsame.place.cxl hallocated hacc fun p hp => ?_
        refine hknown.pointer c p ?_
        rw [hc]
        cases via <;> exact hp
      exact ⟨hknown.cxl, hknown.pointer⟩
  · cases hb

end Release

section Look

variable {cfg : Config C} {s s' : CachedSystem α C} {c : C}

omit [DecidableEq C] in
theorem After.unchanged {h : Host} {t : RowSystem α C} {d : TwoPLPashaSharedDataSCC α}
    (hafter : After s s' h false t) (hview : t.row.view = (s.base.withBlock s.block d).row.view)
    (hd : d.data = s.seen h) (hbit : ∀ h', t.row.current.scc_bit h' = s.bit h') :
    Unchanged s s' := by
  rw [view_withBlock] at hview
  refine ⟨?_, ?_, ?_, fun h' => ?_, hafter.memory, fun _ h' => (hafter.bit h').trans (hbit h')⟩
  · rw [hafter.view, hview]
    exact ⟨rfl, rfl, rfl, rfl, rfl⟩
  · rw [hafter.view, hview]
  · have hdata : t.row.data = t.row.view.owner.data := rfl
    rw [hafter.data, hdata, hview]
    rfl
  · by_cases hh : h' = h
    · subst hh
      rw [hafter.seen_self, hview]
      exact hd
    · exact hafter.seen_other rfl h' hh

variable (hlock : RowSystem.LockInv s.base) (hknown : RowSystem.Known cfg s.base)

include hlock hknown

theorem outcome_search {how : Lookup} (h : (s.base.search cfg c how).map s.onBase = some s') :
    Outcome cfg s (.row (.search c how)) s' := by
  obtain ⟨t, ht, rfl⟩ := map_eq_some_iff.mp h
  have hlockt : RowSystem.LockInv t :=
    @RowSystem.lockInv_step _ _ _ cfg _ _ (.search c how) hlock trivial ht
  rw [search] at ht
  split at ht
  · cases ht
  · rename_i hhost
    split at ht
    · rename_i row hidle hcxl
      cases ht
      have hsame : Unchanged s (s.onBase (s.base.setAccess c (.searched row how))) :=
        unchanged_of_scc rfl rfl (.refl _) rfl rfl fun _ _ => rfl
      refine ⟨.look hsame (by rw [hidle]; rfl) (a := .searched row how) rfl rfl rfl rfl, hlockt,
        hknown.of_access (c := c) (a := .searched row how) rfl rfl rfl fun p hp => ⟨?_, hhost⟩⟩
      cases hp
      exact hknown.cxl row hcxl
    · cases ht
      have hsame : Unchanged s (s.onBase s.base) :=
        unchanged_of_scc rfl rfl (.refl _) rfl rfl fun _ _ => rfl
      exact ⟨.keep hsame rfl rfl rfl, hlock, hknown⟩
    · cases ht

theorem outcome_searchReferenced (h : (s.base.searchReferenced c).map s.onBase = some s') :
    Outcome cfg s (.row (.searchReferenced c)) s' := by
  obtain ⟨t, ht, rfl⟩ := map_eq_some_iff.mp h
  have hlockt : RowSystem.LockInv t :=
    @RowSystem.lockInv_step _ _ _ cfg _ _ (.searchReferenced c) hlock trivial ht
  rw [searchReferenced] at ht
  split at ht
  · rename_i p hc
    obtain ⟨row, hcxl, rfl⟩ := map_eq_some_iff.mp ht
    have hsame : Unchanged s (s.onBase (s.base.setAccess c (.releasing row))) :=
      unchanged_of_scc rfl rfl (.refl _) rfl rfl fun _ _ => rfl
    refine ⟨.look hsame (by rw [hc]; rfl) (a := .releasing row) rfl rfl rfl rfl, hlockt,
      hknown.of_access (c := c) (a := .releasing row) rfl rfl rfl fun q hq => ?_⟩
    cases hq
    exact ⟨hknown.cxl row hcxl, (hknown.pointer c p (by rw [hc]; rfl)).2⟩
  · cases ht

variable (hvia : s.base.Current (s.base.access c).pointer)

include hvia

variable {e : CachedLabel α C}

theorem outcome_count {f : RowSystem α C → Option (RowSystem α C)}
    (hf : ∀ b t, b.access = s.base.access → b.row.WellFormed → f b = some t →
      (b.access c).pointer ≠ none ∧ (b.access c).held = none ∧ ∃ a, a.held = none ∧
      (∀ p ∈ a.pointer, (b.access c).pointer = some p) ∧ t.row.WellFormed ∧
      t.row.view = b.row.view ∧ t.row.lmeta = b.row.lmeta ∧ t.row.smeta = b.row.smeta ∧
      t.access = update b.access c a ∧ t.payload = b.payload ∧ t.allocated = b.allocated)
    (h : s.through cfg c false false f = some s') : Outcome cfg s e s' := by
  rcases after_through hlock.wellFormed hvia h with ⟨hm, d, t, hd, ht, hafter⟩ | ⟨hp, -, t, ht, -⟩
  · obtain ⟨-, hc, a, ha, hpointer, hwf, hview, hlmeta, hsmeta, hacc, hpayload, hallocated⟩ :=
      hf (s.base.withBlock s.block d) t rfl (hlock.withBlock s.block d).wellFormed ht
    have hafter := hafter (by rw [hlmeta]; rfl)
    have hsame := hafter.unchanged hview hd fun h' => by
      rw [current, hlmeta, hsmeta]
      rfl
    have hlockt : RowSystem.LockInv t := by
      refine ⟨hwf, ?_⟩
      rw [hview, holder_of_look hacc hc ha]
      exact (hlock.withBlock s.block d).accounts
    refine ⟨.look hsame hc ha (hafter.access.trans hacc) (hafter.payload.trans hpayload)
      hafter.unpublished, hafter.lockInv hlockt, hafter.known ?_⟩
    refine hknown.of_access (by rw [hview]; rfl) hallocated hacc fun p hp => ?_
    exact hknown.pointer c p (hpointer p hp)
  · exact absurd hp (hf _ t rfl hlock.wellFormed ht).1

theorem outcome_getMigratedRow
    (h : s.through cfg c false false (fun b => b.getMigratedRow c) = some s') :
    Outcome cfg s e s' := by
  refine outcome_count hlock hknown hvia (fun b t _ hwf ht => ?_) h
  unfold getMigratedRow at ht
  split at ht
  · rename_i row inc hc
    cases ht
    refine ⟨by rw [hc]; nofun, by rw [hc]; rfl, _, ?_, ?_,
      wellFormed_get_migrated_row_latched row hwf inc,
      view_get_migrated_row_latched _ row inc, ?_, ?_, rfl, rfl, rfl⟩
    · split <;> rfl
    · rw [hc]
      intro p hp
      split at hp
      · exact hp
      · cases hp
    · simp only [setAccess, get_migrated_row_latched]
      split
      · cases inc <;> rfl
      · rfl
    · simp only [setAccess, get_migrated_row_latched]
      split
      · cases inc <;> rfl
      · rfl
  · cases ht

theorem outcome_dereference (h : s.through cfg c false false (fun b => b.dereference c) = some s') :
    Outcome cfg s e s' := by
  refine outcome_count hlock hknown hvia (fun b t _ hwf ht => ?_) h
  unfold dereference at ht
  split at ht
  · rename_i row hc
    cases ht
    exact ⟨by rw [hc]; nofun, by rw [hc]; rfl, .idle, rfl, nofun, wellFormed_onScc hwf _,
      view_decrease_reference_count_via_ptr _ row, rfl, rfl, rfl, rfl, rfl⟩
  · rename_i row hc
    cases ht
    exact ⟨by rw [hc]; nofun, by rw [hc]; rfl, .idle, rfl, nofun, wellFormed_onScc hwf _,
      view_decrease_reference_count_via_ptr _ row, rfl, rfl, rfl, rfl, rfl⟩
  · cases ht

end Look

end CachedSystem

end Tigon.TwoPLPasha
