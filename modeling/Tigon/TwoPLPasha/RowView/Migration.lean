import Tigon.TwoPLPasha.Migration
import Tigon.TwoPLPasha.RowView.Refinement

namespace Tigon.TwoPLPasha

open TwoPLPashaMetadataShared

namespace RowState

variable {α : Type} {r r' : RowState α}

theorem fields_copyLock (tid : Word) (m : TwoPLPashaMetadataShared) :
    (copyLock tid m).fields = { m.fields with
      readers := (tidFields tid).readers
      writer := (tidFields tid).writer } := by
  have hreaders : (m.set_reader_count (read_lock_num tid)).fields
      = { m.fields with readers := (tidFields tid).readers } := by
    rw [← toNat_read_lock_num]
    exact m.fields_set_reader_count (toNat_read_lock_num tid ▸ tidFields_readers_lt tid)
  rw [copyLock, is_write_locked_eq]
  cases hw : (tidFields tid).writer with
  | false | true => simp [hreaders]

theorem tidFields_copyLockBack (d : TwoPLPashaSharedDataSCC α) (m : TwoPLPashaMetadataShared) :
    tidFields (copyLockBack d m)
      = ⟨m.fields.readers, m.fields.writer, (tidFields d.tid).version⟩ := by
  have hreaders : tidFields (set_read_lock_num d.tid m.get_reader_count)
      = { tidFields d.tid with readers := m.fields.readers } := by
    rw [← m.toNat_get_reader_count]
    exact tidFields_set_read_lock_num d.tid (m.toNat_get_reader_count ▸ m.readers_lt)
  rw [copyLockBack, TwoPLPashaMetadataShared.is_write_locked_eq]
  cases hw : m.fields.writer with
  | false => simp [tidFields_clear_write_lock_bit, hreaders]
  | true => simp [tidFields_set_write_lock_bit, hreaders]

theorem copyOf_copyIn (ctx : Context) (r : RowState α) (inc : Bool)
    (d : TwoPLPashaSharedDataSCC α) :
    copyOf (copyIn ctx r inc d) = { r.view.owner with
      data := if r.view.mod_out || !ctx.enable_migration_optimization then r.data
        else d.data } := by
  have hdata : ∀ b : Bool, (b == false) = !b := by decide
  simp only [copyIn, hdata]
  rw [show r.view.mod_out = r.lmeta.is_data_modified_since_moved_out from rfl]
  cases inc <;> cases hv : r.lmeta.is_valid <;>
    cases r.lmeta.is_data_modified_since_moved_out || !ctx.enable_migration_optimization <;>
    simp [copyOf, view, hv]

variable {ctx : Context}

theorem sccForMoveIn_spec {alloc : Allocation α} {o : Word} (hr : r.WellFormed)
    (halloc : ∀ o d, alloc.scc = some (o, d) → o.toNat < 2 ^ 37)
    (h : r.sccForMoveIn ctx alloc = some (r', o)) :
    r' = { r with lmeta := { r.lmeta with scc_data := some o }, scc := r'.scc } ∧
      o.toNat < 2 ^ 37 ∧
      (ctx.enable_scc = true → r.view.allocated = true →
        (r'.scc o).data = r.view.shared.data) := by
  rw [sccForMoveIn] at h
  split at h
  · rename_i o' hscc henable
    cases h
    refine ⟨by rw [← hscc], hr.offset _ hscc, fun _ _ => ?_⟩
    simp [view, hscc, copyOf]
  · rename_i hcached
    rw [Option.map_eq_some_iff] at h
    obtain ⟨⟨o', d⟩, hscc, hpair⟩ := h
    cases hpair
    refine ⟨rfl, halloc _ _ hscc, fun henable hall => ?_⟩
    -- with SCC on a new block is only taken when there is no cached one
    cases hdata : r.lmeta.scc_data with
    | none => simp [view, hdata] at hall
    | some o' => exact absurd henable (hcached o' hdata)

theorem installShared_refines {host : Host} {inc prev_real next_real : Bool}
    {keyReal : TwoPLPashaMetadataShared → TwoPLPashaMetadataShared} {p : Ptr} {o : Word}
    (hkey : ∀ m, m.fields.prev_real = false → m.fields.next_real = false →
      (keyReal m).fields = { m.fields with prev_real := prev_real, next_real := next_real })
    (hm : r.lmeta.is_migrated = false) (hscc : r.lmeta.scc_data = some o) (ho : o.toNat < 2 ^ 37)
    (hcxl : r.cxl = none) (h : installShared ctx host inc keyReal r p o = some r') :
    r'.view = r.view.moveIn ctx.enable_migration_optimization p prev_real next_real
      (r.scc o).data ∧ r'.WellFormed := by
  obtain ⟨hview, hwf⟩ := finish_write_refines h
  have hword : ((copyLock r.lmeta.tid ((construct o).init_scc_metadata
      host)).clear_is_data_modified_since_moved_in).fields
      = ⟨o, false, false, false, (tidFields r.lmeta.tid).writer,
        (tidFields r.lmeta.tid).readers⟩ := by
    simp [fields_copyLock, fields_construct ho]
  have hfields := hkey _ (congrArg _ hword) (congrArg _ hword)
  rw [hword] at hfields
  refine ⟨?_, hwf ⟨?_, ?_, ?_⟩⟩
  · rw [hview]
    have hcopy := copyOf_copyIn ctx r inc (r.scc o)
    simp only [view, current, RowView.moveIn, Function.update_self, hfields, hscc, Option.getD_some,
      hcopy, hcxl]
    simp [hm]
  · intro o' ho'
    cases hscc.symm.trans ho'
    exact ho
  · intro _
    simp only [current, Function.update_self, hfields]
    exact hscc
  · simp [hcxl]

theorem fields_id_of_not_real (m : TwoPLPashaMetadataShared) (hprev : m.fields.prev_real = false)
    (hnext : m.fields.next_real = false) :
    (id m).fields = { m.fields with prev_real := false, next_real := false } := by
  change m.fields = _
  cases hf : m.fields with
  | mk scc_data prev_real next_real mod_in writer readers =>
    rw [hf] at hprev hnext
    cases hprev
    cases hnext
    rfl

-- A move-in that succeeds, one that finds the row migrated, one that finds no memory.
inductive MovesInAs (ctx : Context) (alloc : Allocation α) (prev_real next_real : Bool)
    (r r' : RowState α) : migration_result → Prop
  | success {p : Ptr} {fresh : α} (hm : r.lmeta.is_migrated = false)
      (hp : alloc.smeta = some p)
      (hfresh : ctx.enable_scc = true → r.view.allocated = true → fresh = r.view.shared.data)
      (hview : r'.view
        = r.view.moveIn ctx.enable_migration_optimization p prev_real next_real fresh) :
      MovesInAs ctx alloc prev_real next_real r r' .SUCCESS
  | already (hm : r.lmeta.is_migrated = true) (hview : r'.view = r.view) :
      MovesInAs ctx alloc prev_real next_real r r' .FAIL_ALREADY_IN_CXL
  | outOfMemory (hview : r'.view = r.view) :
      MovesInAs ctx alloc prev_real next_real r r' .FAIL_OOM

theorem moveIn_refines {host : Host} {alloc : Allocation α} {inc prev_real next_real : Bool}
    {keyReal : TwoPLPashaMetadataShared → TwoPLPashaMetadataShared} {res : migration_result}
    (hkey : ∀ m, m.fields.prev_real = false → m.fields.next_real = false →
      (keyReal m).fields = { m.fields with prev_real := prev_real, next_real := next_real })
    (hr : r.WellFormed) (halloc : ∀ o d, alloc.scc = some (o, d) → o.toNat < 2 ^ 37)
    (h : moveIn ctx host alloc inc keyReal r = some (r', res)) :
    MovesInAs ctx alloc prev_real next_real r r' res ∧ r'.WellFormed := by
  rw [moveIn] at h
  cases hm : r.lmeta.is_migrated with
  | true =>
    rw [if_neg (by simp [hm])] at h
    cases h
    cases inc with
    | false => exact ⟨.already hm rfl, hr⟩
    | true => exact ⟨.already hm (view_inc_ref_cnt r _), wellFormed_onScc hr _⟩
  | false =>
    rw [if_pos hm] at h
    cases hp : alloc.smeta with
    | none =>
      simp only [hp] at h
      cases h
      exact ⟨.outOfMemory rfl, hr⟩
    | some p =>
      simp only [hp] at h
      cases hblock : r.sccForMoveIn ctx alloc with
      | none =>
        simp only [hblock] at h
        cases h
        exact ⟨.outOfMemory rfl, hr⟩
      | some b =>
        obtain ⟨r₁, o⟩ := b
        simp only [hblock, Option.map_eq_some_iff] at h
        obtain ⟨r₂, hinstall, hpair⟩ := h
        cases hpair
        obtain ⟨heq, ho, hfresh⟩ := sccForMoveIn_spec hr halloc hblock
        have hcxl : r₁.cxl = none := by
          rw [heq]
          simp [hr.cxl, hm]
        obtain ⟨hview, hwf⟩ := installShared_refines hkey (by rw [heq]; exact hm)
          (by rw [heq]) ho hcxl hinstall
        refine ⟨.success hm hp hfresh ?_, hwf⟩
        -- a move-in does not look at what the SCC block was before, the data apart
        rw [hview, heq]
        simp [view, RowView.moveIn, hm]

theorem uninstallShared_refines (ctx : Context) (host : Host) (hr : r.WellFormed)
    (hm : r.lmeta.is_migrated = true) :
    (uninstallShared ctx host r).view = r.view.moveOut ctx.enable_migration_optimization ∧
      (uninstallShared ctx host r).WellFormed := by
  have hcopy : copyOf (r.sccOf r.lmeta.migrated_row) = r.view.shared :=
    copyOf_sccOf hr ⟨hm, rfl⟩
  have hblock : r.lmeta.scc_data.getD 0#64 = (r.smeta r.lmeta.migrated_row).fields.scc_data := by
    rw [hr.scc hm]
    rfl
  have hopt : ∀ b : Bool, (b == false) = !b := by decide
  refine ⟨?_, hr.offset, fun h => absurd h (by simp [uninstallShared]), rfl⟩
  simp only [RowView.moveOut, ← hcopy]
  simp [uninstallShared, view, hm, tidFields_copyLockBack, hopt, prepare_read, copyOf, sccOf, onScc,
    hblock, current]

theorem moveOut_refines (ctx : Context) (host : Host) (hr : r.WellFormed) :
    ((moveOut ctx host r).1.view = r.view.moveOut ctx.enable_migration_optimization ∧
        r.lmeta.is_migrated = true ∨
      (moveOut ctx host r).1.view = r.view) ∧ (moveOut ctx host r).1.WellFormed := by
  rw [moveOut]
  split
  · rename_i hm
    split
    · exact ⟨.inr rfl, hr⟩
    · obtain ⟨hview, hwf⟩ := uninstallShared_refines ctx host hr hm
      exact ⟨.inl ⟨hview, hm⟩, hwf⟩
  · exact ⟨.inr rfl, hr⟩

end RowState

end Tigon.TwoPLPasha
