import Tigon.TwoPLPasha.CachedSystem.Outcomes

namespace Tigon.TwoPLPasha

open Option RowState RowSystem Tigon.Library

namespace CachedSystem

variable {α C : Type} [DecidableEq C]

section Move

variable {cfg : Config C} {s s' : CachedSystem α C} {o : Word}

omit [DecidableEq C] in
theorem unchanged_evict [DecidableEq α] {h : Host} {l : CacheLine Host (TwoPLPashaSharedDataSCC α)}
    (hl : (s.line o).evict h = some l) :
    (s.put s.base o l).base = s.base ∧ Unchanged s (s.put s.base o l) := by
  have hmemory := (CacheLine.view_evict hl h).1
  have hbase : (s.put s.base o l).base = s.base := by
    have hscc : Function.update s.base.row.scc o l.memory = s.base.row.scc :=
      Function.update_eq_self_iff.mpr hmemory
    rw [put, hscc]
  have hline : ∀ o', ((s.put s.base o l).line o').memory = (s.line o').memory ∧
      ∀ h', ((s.put s.base o l).line o').view h' = (s.line o').view h' := by
    intro o'
    by_cases ho : o' = o
    · subst ho
      rw [line_put_self]
      exact ⟨hmemory, fun h' => (CacheLine.view_evict hl h').2⟩
    · have hsame : (s.put s.base o l).line o' = s.line o' := by
        simp [line, put, ho]
      rw [hsame]
      exact ⟨rfl, fun _ => rfl⟩
  have hblock : (s.put s.base o l).block = s.block := by rw [block, hbase, block]
  refine ⟨hbase, ?_, ?_, ?_, fun h' => ?_, ?_, fun _ h' => ?_⟩
  · rw [hbase]
    exact .refl _
  · rw [hbase]
  · rw [hbase]
  · rw [seen, hblock, (hline _).2]
    rfl
  · rw [memory, hblock, (hline _).1]
    rfl
  · rw [bit, hbase, bit]

variable (hlock : RowSystem.LockInv s.base) (hknown : RowSystem.Known cfg s.base)

include hlock hknown

theorem outcome_moveOut (h : s.moveOut cfg = some s') : Outcome cfg s (.row .moveOut) s' := by
  rw [moveOut] at h
  split at h
  · cases h
    exact ⟨.keep ⟨.refl _, rfl, rfl, fun _ => rfl, rfl, fun _ _ => rfl⟩ rfl rfl rfl, hlock, hknown⟩
  · split at h
    · rcases after_owned hlock.wellFormed h with ⟨hm, d, t, hd, ht, hafter⟩ | ⟨hm, -⟩
      · obtain ⟨hrow, hacc, hpayload, hallocated⟩ := moveOutUnchecked_eq_some ht
        have hlockb := hlock.withBlock s.block d
        obtain ⟨hview, hwf⟩ :=
          uninstallShared_refines cfg.ctx cfg.owner hlockb.wellFormed hm
        rw [← hrow, view_withBlock] at hview
        rw [← hrow] at hwf
        have hafter := hafter (by rw [hrow]; rfl)
        have hlockt : RowSystem.LockInv t := by
          refine ⟨hwf, ?_⟩
          rw [holder_of_access_eq hacc, hview]
          exact hlock.accounts
        refine ⟨.moveOut hm ?_ ?_ ?_ ?_ (hafter.access.trans hacc) (hafter.payload.trans hpayload)
          hafter.unpublished, hafter.lockInv hlockt, hafter.known ⟨?_, ?_⟩⟩
        · rw [hafter.view, hview]
          rfl
        · have hdata : t.row.data = t.row.view.owner.data := rfl
          rw [hafter.data, hdata, hview]
          simp only [RowView.moveOut]
          split
          · exact .inl hd
          · rename_i hkeep
            rw [Bool.or_eq_true, not_or, Bool.not_eq_true] at hkeep
            exact .inr ⟨hkeep.1, rfl⟩
        · rw [hafter.seen_self, hview]
          exact hd
        · rw [hafter.view, hview]
          rfl
        · rw [hrow]
          intro _ hp
          cases hp
        · rw [hacc, hallocated]
          exact hknown.pointer
      · rename_i hm'
        exact absurd hm' (by rw [show s.base.row.lmeta.is_migrated = false from hm]; decide)
    · cases h
      exact ⟨.keep ⟨.refl _, rfl, rfl, fun _ => rfl, rfl, fun _ _ => rfl⟩ rfl rfl rfl, hlock,
        hknown⟩

variable {alloc : Allocation α} {inc : Bool}

theorem outcome_moveIn_migrated (hm : s.base.row.lmeta.is_migrated = true)
    (h : (s.owned cfg false false fun b => b.moveIn cfg alloc inc) = some s') :
    Outcome cfg s (.row (.moveIn alloc inc)) s' := by
  rcases after_owned hlock.wellFormed h with ⟨-, d, t, hd, ht, hafter⟩ | ⟨hm', -⟩
  · obtain ⟨-, ⟨res, hmove⟩, hacc, hpayload, hallocated⟩ := moveIn_eq_some ht
    have hlockb := hlock.withBlock s.block d
    have hmb : (s.base.withBlock s.block d).row.lmeta.is_migrated = true := hm
    rw [RowState.moveIn, if_neg (by simp [hmb])] at hmove
    obtain ⟨hrow, -⟩ := Prod.mk.inj (some.inj hmove)
    have hview : t.row.view = (s.base.withBlock s.block d).row.view := by
      rw [← hrow]
      split
      · exact view_inc_ref_cnt _ _
      · rfl
    have hword : t.row.lmeta = s.base.row.lmeta ∧ t.row.smeta = s.base.row.smeta ∧
        t.row.cxl = s.base.row.cxl := by
      rw [← hrow]
      split <;> exact ⟨rfl, rfl, rfl⟩
    have hwf : t.row.WellFormed := by
      rw [← hrow]
      split
      · exact wellFormed_onScc hlockb.wellFormed _
      · exact hlockb.wellFormed
    have hafter := hafter (by rw [hword.1])
    have hsame := hafter.unchanged hview hd fun h' => by
      rw [current, hword.1, hword.2.1]
      rfl
    have hlockt : RowSystem.LockInv t := by
      refine ⟨hwf, ?_⟩
      rw [holder_of_access_eq hacc, hview]
      exact hlockb.accounts
    refine ⟨.keep hsame (hafter.access.trans hacc) (hafter.payload.trans hpayload)
      hafter.unpublished, hafter.lockInv hlockt, hafter.known ?_⟩
    refine hknown.of_allocated (fun p hp => .inr ?_) hacc hallocated
    rw [← hword.2.2]
    exact hp
  · exact absurd hm (by rw [show s.base.row.lmeta.is_migrated = false from hm']; decide)

omit hlock hknown [DecidableEq C] in
theorem sccForMoveIn_block (hscc : cfg.ctx.enable_scc = true)
    (ho : s.blockForMoveIn cfg alloc = some o) (d : TwoPLPashaSharedDataSCC α) :
    ∃ r₁ p, alloc.smeta = some p ∧
      (s.base.withBlock o d).row.sccForMoveIn cfg.ctx alloc = some (r₁, o) ∧
      (s.base.row.view.allocated = true → o = s.block) := by
  rw [blockForMoveIn] at ho
  split at ho
  · rename_i hsmeta
    obtain ⟨p, hp⟩ := isSome_iff_exists.mp hsmeta
    have hblock : (s.base.withBlock o d).row.lmeta.scc_data = s.base.row.lmeta.scc_data := rfl
    rw [sccForMoveIn, hblock, hscc]
    rw [hscc] at ho
    cases hdata : s.base.row.lmeta.scc_data with
    | none =>
      rw [hdata] at ho
      obtain ⟨b, hb, rfl⟩ := map_eq_some_iff.mp ho
      refine ⟨_, p, hp, by rw [hb]; rfl, fun hall => ?_⟩
      have hsome : s.base.row.lmeta.scc_data.isSome = true := hall
      rw [hdata] at hsome
      cases hsome
    | some o' =>
      rw [hdata] at ho
      cases ho
      refine ⟨_, p, hp, rfl, fun _ => ?_⟩
      rw [block, hdata]
      rfl
  · cases ho

omit hlock hknown [DecidableEq C] in
theorem moveIn_of_no_block (hscc : cfg.ctx.enable_scc = true) {r : RowState α}
    {res : migration_result} (hm : s.base.row.lmeta.is_migrated = false)
    (ho : s.blockForMoveIn cfg alloc = none)
    (h : RowState.moveIn cfg.ctx cfg.owner alloc inc id s.base.row = some (r, res)) :
    r = s.base.row := by
  rw [RowState.moveIn, if_pos hm] at h
  cases hp : alloc.smeta with
  | none =>
    simp only [hp] at h
    cases h
    rfl
  | some p =>
    have hnone : s.base.row.sccForMoveIn cfg.ctx alloc = none := by
      rw [blockForMoveIn, if_pos (by rw [hp]; rfl), hscc] at ho
      rw [sccForMoveIn, hscc]
      cases hdata : s.base.row.lmeta.scc_data with
      | none =>
        rw [hdata] at ho
        exact map_eq_none_iff.mpr (map_eq_none_iff.mp ho)
      | some o =>
        rw [hdata] at ho
        cases ho
    simp only [hp, hnone] at h
    cases h
    rfl

theorem outcome_moveIn_local (hscc : cfg.ctx.enable_scc = true) {t : RowSystem α C}
    (hm : s.base.row.lmeta.is_migrated = false) (ho : s.blockForMoveIn cfg alloc = some o)
    (ht : (s.base.withBlock o ((s.line o).view cfg.owner)).moveIn cfg alloc inc = some t) :
    Outcome cfg s (.row (.moveIn alloc inc)) (s.worked cfg.owner true t o (s.line o)) := by
  obtain ⟨hadmits, ⟨res, hmove⟩, hacc, hpayload, hallocated⟩ := moveIn_eq_some ht
  obtain ⟨r₁, p, hp, hblock, hold⟩ := sccForMoveIn_block hscc ho ((s.line o).view cfg.owner)
  have hlockb := hlock.withBlock o ((s.line o).view cfg.owner)
  have halloc : ∀ o' d, alloc.scc = some (o', d) → o'.toNat < 2 ^ 37 :=
    fun o' d h => hadmits.2 (o', d) h
  have hr₁ := (sccForMoveIn_spec hlockb.wellFormed halloc hblock).1
  have hmb : (s.base.withBlock o ((s.line o).view cfg.owner)).row.lmeta.is_migrated = false := hm
  obtain ⟨hinstall, rfl⟩ := moveIn_eq_some hmb hp hblock hmove
  obtain ⟨hdata, hbit⟩ := lmeta_installShared hinstall
  obtain ⟨hmoves, hwf⟩ := moveIn_refines fields_id_of_not_real hlockb.wellFormed
    halloc hmove
  cases hmoves with
  | @success p' fresh _ hp' hfresh hview =>
    cases hp.symm.trans hp'
    have hafter : After s (s.worked cfg.owner true t o (s.line o)) cfg.owner true t := by
      refine after_worked ?_ nofun
      rw [hdata, hr₁]
      rfl
    have hlockt : RowSystem.LockInv t := by
      refine ⟨hwf, ?_⟩
      rw [holder_of_access_eq hacc, hview]
      exact hlockb.accounts
    refine ⟨.moveIn (x := t.row.view.shared.data) hm ?_ ?_ ?_ hafter.seen_self hafter.memory ?_
      ?_ ?_ (hafter.access.trans hacc) (hafter.payload.trans hpayload) hafter.unpublished,
      hafter.lockInv hlockt, hafter.known ?_⟩
    · rw [hafter.view, hview]
      rfl
    · rw [hafter.view, hview]
      exact (hadmits.1 p hp).2
    · rw [hview]
      simp only [RowView.moveIn]
      split
      · exact .inl rfl
      · rename_i hkeep
        rw [Bool.or_eq_true, not_or, Bool.not_eq_true] at hkeep
        refine .inr ⟨hkeep.1, fun hall => ?_⟩
        rw [hfresh hscc hall, hold hall, view_withBlock]
        rfl
    · intro h'
      rw [hafter.bit, hbit]
    · have hdata : t.row.data = t.row.view.owner.data := rfl
      rw [hafter.data, hdata, hview]
      rfl
    · rw [hafter.view, hview]
      rfl
    · refine hknown.of_allocated (fun q hq => .inl ?_) hacc hallocated
      have hcxl : t.row.view.cxl = some p := by
        rw [hview]
        have hnone : s.base.row.cxl = none := by
          rw [hlock.wellFormed.cxl, hm]
          rfl
        have hcxl : (s.base.withBlock o ((s.line o).view cfg.owner)).row.view.cxl = none := hnone
        rw [RowView.moveIn, hcxl]
        rfl
      cases hq.symm.trans hcxl
      rw [hp]
      exact List.mem_singleton.mpr rfl

theorem outcome_moveIn (hscc : cfg.ctx.enable_scc = true) (h : s.moveIn cfg alloc inc = some s') :
    Outcome cfg s (.row (.moveIn alloc inc)) s' := by
  rw [moveIn] at h
  split at h
  · rename_i hm
    exact outcome_moveIn_migrated hlock hknown hm h
  · rename_i hm
    rw [Bool.not_eq_true] at hm
    split at h
    · rename_i o ho
      obtain ⟨t, ht, rfl⟩ := map_eq_some_iff.mp h
      exact outcome_moveIn_local hlock hknown hscc hm ho ht
    · rename_i ho
      obtain ⟨t, ht, rfl⟩ := map_eq_some_iff.mp h
      obtain ⟨-, ⟨res, hmove⟩, hacc, hpayload, hallocated⟩ := moveIn_eq_some ht
      have hrow := moveIn_of_no_block hscc hm ho hmove
      have hsame : Unchanged s (s.onBase t) := by
        refine unchanged_of_scc ?_ ?_ ?_ ?_ ?_ fun _ _ => ?_ <;> rw [hrow]
        exact .refl _
      refine ⟨.keep hsame hacc hpayload rfl, ⟨?_, ?_⟩,
        hknown.of_allocated (fun p hp => .inr ?_) hacc hallocated⟩
      · rw [onBase, hrow]
        exact hlock.wellFormed
      · rw [onBase, holder_of_access_eq hacc, hrow]
        exact hlock.accounts
      · rw [← hrow]
        exact hp

end Move

def UsesIndexedPointer (s : CachedSystem α C) : CachedLabel α C → Prop
  | .row e => s.base.UsesIndexedPointer e
  | .scanUpdate c _ | .releaseScan c => ∀ p ∈ (s.base.access c).pointer, s.base.row.cxl = some p
  | .evict .. => True

omit [DecidableEq C] in
instance (s : CachedSystem α C) (e : CachedLabel α C) : Decidable (s.UsesIndexedPointer e) := by
  cases e <;> unfold UsesIndexedPointer <;> infer_instance

theorem outcome_of_step [DecidableEq α] {cfg : Config C} (hscc : cfg.ctx.enable_scc = true)
    {s s' : CachedSystem α C} {e : CachedLabel α C} (hlock : RowSystem.LockInv s.base)
    (hknown : RowSystem.Known cfg s.base) (hok : s.UsesIndexedPointer e)
    (h : s.step cfg e = some s') : Outcome cfg s e s' := by
  have hcurrent : ∀ c, (∀ p ∈ (s.base.access c).pointer, s.base.row.cxl = some p) →
      s.base.Current (s.base.access c).pointer :=
    fun c hp p hc => hlock.wellFormed.isCurrent_of_cxl (hp p hc)
  cases e with
  | row e =>
    cases e with
    | localLock c kind copy => exact outcome_localLock hlock hknown h
    | search c how => exact outcome_search hlock hknown h
    | getMigratedRow c => exact outcome_getMigratedRow hlock hknown (hcurrent c (hok c rfl)) h
    | remoteLock c kind => exact outcome_remoteLock hlock hknown hok h
    | update c value =>
      exact outcome_update hlock hknown (hcurrent c (hok c rfl)) (fun b t ht => ⟨b.row.data, ht⟩) h
    | release c => exact outcome_release hlock hknown (hcurrent c (hok c rfl)) h
    | releaseVersion c new_value =>
      exact outcome_releaseVersion hlock hknown (hcurrent c (hok c rfl)) h
    | searchReferenced c => exact outcome_searchReferenced hlock hknown h
    | dereference c => exact outcome_dereference hlock hknown (hcurrent c (hok c rfl)) h
    | moveIn alloc inc => exact outcome_moveIn hlock hknown hscc h
    | moveOut => exact outcome_moveOut hlock hknown h
    | commitInsert | searchInserted c | commitRemoteInsert c => cases h
  | scanUpdate c value =>
    exact outcome_update hlock hknown (hcurrent c hok)
      (fun b t ht => scanUpdate_eq_some ht) h
  | releaseScan c => exact outcome_releaseScan hlock hknown (hcurrent c hok) h
  | evict host o =>
    obtain ⟨l, hl, rfl⟩ := map_eq_some_iff.mp h
    obtain ⟨hbase, hsame⟩ := unchanged_evict hl
    refine ⟨.keep hsame (by rw [hbase]) (by rw [hbase]) rfl, ?_, ?_⟩
    · rw [hbase]
      exact hlock
    · rw [hbase]
      exact hknown

end CachedSystem

end Tigon.TwoPLPasha
