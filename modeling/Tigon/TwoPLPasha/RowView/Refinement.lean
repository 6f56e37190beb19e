import Tigon.TwoPLPasha.Metadata.Lemmas
import Tigon.TwoPLPasha.Row
import Tigon.TwoPLPasha.RowView

namespace Tigon.TwoPLPasha

open Option RowView Tigon.Library LockView
open TwoPLPashaSharedDataSCC

namespace RowState

variable {α : Type}

def copyOf (d : TwoPLPashaSharedDataSCC α) : Copy α :=
  ⟨d.valid, (tidFields d.tid).version, d.data⟩

def current (r : RowState α) : TwoPLPashaMetadataShared := r.smeta r.lmeta.migrated_row

def view (r : RowState α) : RowView α where
  lock :=
    if r.lmeta.is_migrated then ⟨r.current.fields.readers, r.current.fields.writer⟩
    else ⟨(tidFields r.lmeta.tid).readers, (tidFields r.lmeta.tid).writer⟩
  migrated := r.lmeta.is_migrated
  row := r.lmeta.migrated_row
  cxl := r.cxl
  prev_real := r.lmeta.is_migrated && r.current.fields.prev_real
  next_real := r.lmeta.is_migrated && r.current.fields.next_real
  mod_in := r.lmeta.is_migrated && r.current.fields.mod_in
  mod_out := r.lmeta.is_data_modified_since_moved_out
  owner := ⟨r.lmeta.is_valid, (tidFields r.lmeta.tid).version, r.data⟩
  shared := copyOf (r.scc (r.lmeta.scc_data.getD 0))
  allocated := r.lmeta.scc_data.isSome

def IsCurrent (r : RowState α) (row : Ptr) : Prop :=
  r.lmeta.is_migrated = true ∧ r.lmeta.migrated_row = row

instance (r : RowState α) (row : Ptr) : Decidable (r.IsCurrent row) :=
  inferInstanceAs (Decidable (_ ∧ _))

-- A migrated row's metadata points to the cached SCC block, and the CXL index
-- holds the migrated row and nothing else.
structure WellFormed (r : RowState α) : Prop where
  offset : ∀ o, r.lmeta.scc_data = some o → o.toNat < 2 ^ 37
  scc : r.lmeta.is_migrated = true → r.lmeta.scc_data = some r.current.fields.scc_data
  cxl : r.cxl = if r.lmeta.is_migrated then some r.lmeta.migrated_row else none

theorem WellFormed.isCurrent_of_cxl {r : RowState α} {p : Ptr} (hr : r.WellFormed)
    (h : r.cxl = some p) : r.IsCurrent p := by
  have hcxl := hr.cxl
  rw [h] at hcxl
  cases hm : r.lmeta.is_migrated with
  | true =>
    rw [hm] at hcxl
    exact ⟨hm, (some.inj hcxl).symm⟩
  | false =>
    rw [hm] at hcxl
    cases hcxl

section Update

variable (r : RowState α) (row : Ptr)

@[simp]
theorem lmeta_onSmeta (f : TwoPLPashaMetadataShared → TwoPLPashaMetadataShared) :
    (r.onSmeta row f).lmeta = r.lmeta := rfl

@[simp]
theorem data_onSmeta (f : TwoPLPashaMetadataShared → TwoPLPashaMetadataShared) :
    (r.onSmeta row f).data = r.data := rfl

@[simp]
theorem scc_onSmeta (f : TwoPLPashaMetadataShared → TwoPLPashaMetadataShared) :
    (r.onSmeta row f).scc = r.scc := rfl

@[simp]
theorem cxl_onSmeta (f : TwoPLPashaMetadataShared → TwoPLPashaMetadataShared) :
    (r.onSmeta row f).cxl = r.cxl := rfl

@[simp]
theorem smeta_onSmeta_self (f : TwoPLPashaMetadataShared → TwoPLPashaMetadataShared) :
    (r.onSmeta row f).smeta row = f (r.smeta row) := by
  simp [onSmeta]

@[simp]
theorem lmeta_onScc (g : TwoPLPashaSharedDataSCC α → TwoPLPashaSharedDataSCC α) :
    (r.onScc row g).lmeta = r.lmeta := rfl

@[simp]
theorem data_onScc (g : TwoPLPashaSharedDataSCC α → TwoPLPashaSharedDataSCC α) :
    (r.onScc row g).data = r.data := rfl

@[simp]
theorem smeta_onScc (g : TwoPLPashaSharedDataSCC α → TwoPLPashaSharedDataSCC α) :
    (r.onScc row g).smeta = r.smeta := rfl

variable {r row}

section

variable (f : TwoPLPashaMetadataShared → TwoPLPashaMetadataShared)

include f

theorem current_onSmeta_of_stale (h : r.lmeta.migrated_row ≠ row) :
    (r.onSmeta row f).current = r.current := by
  simp [current, onSmeta, h]

theorem current_onSmeta (h : r.lmeta.migrated_row = row) :
    (r.onSmeta row f).current = f r.current := by
  subst h
  simp [current]

theorem view_onSmeta_of_not_current (h : ¬ r.IsCurrent row) : (r.onSmeta row f).view = r.view := by
  by_cases hm : r.lmeta.is_migrated = true
  · have hrow : r.lmeta.migrated_row ≠ row := fun heq => h ⟨hm, heq⟩
    simp [view, current_onSmeta_of_stale f hrow]
  · simp [view, hm]

theorem view_onSmeta (h : r.IsCurrent row) :
    (r.onSmeta row f).view = { r.view with
      lock := ⟨(f r.current).fields.readers, (f r.current).fields.writer⟩
      prev_real := (f r.current).fields.prev_real
      next_real := (f r.current).fields.next_real
      mod_in := (f r.current).fields.mod_in } := by
  simp [view, h.1, current_onSmeta f h.2]

end

theorem wellFormed_onSmeta (hr : r.WellFormed)
    {f : TwoPLPashaMetadataShared → TwoPLPashaMetadataShared}
    (hf : r.IsCurrent row → (f r.current).fields.scc_data = r.current.fields.scc_data) :
    (r.onSmeta row f).WellFormed := by
  refine ⟨hr.offset, fun hm => ?_, hr.cxl⟩
  have hscc := hr.scc hm
  by_cases hrow : r.lmeta.migrated_row = row
  · rw [current_onSmeta f hrow, hf ⟨hm, hrow⟩]
    exact hscc
  · rw [current_onSmeta_of_stale f hrow]
    exact hscc

theorem wellFormed_onScc (hr : r.WellFormed)
    (g : TwoPLPashaSharedDataSCC α → TwoPLPashaSharedDataSCC α) : (r.onScc row g).WellFormed :=
  ⟨hr.offset, hr.scc, hr.cxl⟩

theorem sccOf_current (hr : r.WellFormed) (h : r.IsCurrent row) :
    r.sccOf row = r.scc (r.lmeta.scc_data.getD 0) := by
  obtain ⟨hm, rfl⟩ := h
  rw [hr.scc hm]
  rfl

theorem copyOf_sccOf (hr : r.WellFormed) (h : r.IsCurrent row) :
    copyOf (r.sccOf row) = r.view.shared := by
  rw [sccOf_current hr h]
  rfl

theorem view_onScc (hr : r.WellFormed) (h : r.IsCurrent row)
    (g : TwoPLPashaSharedDataSCC α → TwoPLPashaSharedDataSCC α) :
    (r.onScc row g).view = { r.view with shared := copyOf (g (r.sccOf row)) } := by
  obtain ⟨hm, rfl⟩ := h
  have hblock : r.lmeta.scc_data.getD 0 = (r.smeta r.lmeta.migrated_row).get_scc_data := by
    rw [hr.scc hm]
    rfl
  have hshared : (r.onScc r.lmeta.migrated_row g).scc (r.lmeta.scc_data.getD 0)
      = g (r.sccOf r.lmeta.migrated_row) := by
    rw [hblock, onScc]
    exact Function.update_self ..
  simp only [view, lmeta_onScc, data_onScc, hshared]
  rfl

theorem view_onScc_editsShared {g : TwoPLPashaSharedDataSCC α → TwoPLPashaSharedDataSCC α}
    {f : Copy α → Copy α} (hg : ∀ d, copyOf (g d) = f (copyOf d)) :
    EditsShared f r.view (r.onScc row g).view := by
  by_cases hblock : r.lmeta.scc_data.getD 0 = (r.smeta row).get_scc_data
  · right
    have hshared : copyOf ((r.onScc row g).scc (r.lmeta.scc_data.getD 0)) = f r.view.shared := by
      rw [onScc, hblock]
      simp only [Function.update_self]
      rw [hg, sccOf, ← hblock]
      rfl
    simp only [view, lmeta_onScc, data_onScc, hshared]
    rfl
  · left
    have hshared : (r.onScc row g).scc (r.lmeta.scc_data.getD 0)
        = r.scc (r.lmeta.scc_data.getD 0) := by
      rw [onScc]
      exact Function.update_of_ne hblock _ _
    simp only [view, lmeta_onScc, data_onScc, hshared]
    rfl

theorem view_onScc_of_copyOf_eq {g : TwoPLPashaSharedDataSCC α → TwoPLPashaSharedDataSCC α}
    (hg : ∀ d, copyOf (g d) = copyOf d) : (r.onScc row g).view = r.view := by
  rcases @view_onScc_editsShared _ r row g id hg with h | h
  · exact h
  · exact h

end Update

section Reference

variable (r : RowState α) (row : Ptr)

theorem view_prepare_read (host : Host) : (r.prepare_read host row).view = r.view := by
  by_cases h : r.IsCurrent row
  · rw [prepare_read, view_onSmeta _ h]
    simp [view, h.1]
  · exact view_onSmeta_of_not_current _ h

@[simp]
theorem lmeta_prepare_read (host : Host) : (r.prepare_read host row).lmeta = r.lmeta := rfl

@[simp]
theorem sccOf_prepare_read (host : Host) : (r.prepare_read host row).sccOf row = r.sccOf row := by
  simp [sccOf, prepare_read]

variable {r} in
theorem wellFormed_prepare_read (hr : r.WellFormed) (host : Host) :
    (r.prepare_read host row).WellFormed :=
  wellFormed_onSmeta hr fun _ => by simp

theorem view_inc_ref_cnt :
    (r.onScc row fun d => d.inc_ref_cnt).view = r.view :=
  view_onScc_of_copyOf_eq fun _ => rfl

theorem view_get_migrated_row_latched (inc : Bool) :
    (r.get_migrated_row_latched row inc).1.view = r.view := by
  rw [get_migrated_row_latched]
  split
  · cases inc
    · rfl
    · exact view_inc_ref_cnt r row
  · rfl

theorem lmeta_get_migrated_row_latched (inc : Bool) :
    (r.get_migrated_row_latched row inc).1.lmeta = r.lmeta := by
  rw [get_migrated_row_latched]
  split
  · cases inc <;> rfl
  · rfl

theorem get_migrated_row_latched_eq_some {inc : Bool} {p : Ptr}
    (h : (r.get_migrated_row_latched row inc).2 = some p) : p = row := by
  rw [get_migrated_row_latched] at h
  split at h
  · exact (some.inj h).symm
  · cases h

variable {r} in
theorem wellFormed_get_migrated_row_latched (hr : r.WellFormed) (inc : Bool) :
    (r.get_migrated_row_latched row inc).1.WellFormed := by
  rw [get_migrated_row_latched]
  split
  · cases inc
    · exact hr
    · exact wellFormed_onScc hr _
  · exact hr

theorem view_decrease_reference_count_via_ptr :
    (r.decrease_reference_count_via_ptr row).view = r.view :=
  view_onScc_of_copyOf_eq fun _ => rfl

end Reference

section Lock

variable {r : RowState α} {row : Ptr}

theorem view_lock_of_current (h : r.lmeta.is_migrated = true) :
    r.view.lock = ⟨r.current.fields.readers, r.current.fields.writer⟩ := by
  simp [view, h]

theorem sharedUnavailable_eq (kind : LockKind) (m : TwoPLPashaMetadataShared) :
    sharedUnavailable kind m
      = !(free 31 kind ⟨m.fields.readers, m.fields.writer⟩) := by
  cases kind <;> simp [sharedUnavailable, free, bne]

theorem unavailable_eq (kind : LockKind) (v : Word) :
    lockUnavailable kind v = !(free 31 kind ⟨(tidFields v).readers, (tidFields v).writer⟩) := by
  cases kind <;> simp [lockUnavailable, free, bne]

variable {kind : LockKind}

theorem fields_sharedAcquire {m : TwoPLPashaMetadataShared}
    (h : free 31 kind ⟨m.fields.readers, m.fields.writer⟩ = true) :
    (sharedAcquire kind m).fields = { m.fields with
      readers := (acquire kind ⟨m.fields.readers, m.fields.writer⟩).readers
      writer := (acquire kind ⟨m.fields.readers, m.fields.writer⟩).writer } := by
  cases kind with
  | read =>
    have hlt := m.readers_lt
    simp only [free, Bool.and_eq_true, bne_iff_ne] at h
    exact m.fields_increase_reader_count (by omega)
  | write => exact m.fields_set_write_locked

theorem tidFields_acquire {v : Word}
    (h : free 31 kind ⟨(tidFields v).readers, (tidFields v).writer⟩ = true) :
    tidFields (lockAcquire kind v) = { tidFields v with
      readers := (acquire kind ⟨(tidFields v).readers, (tidFields v).writer⟩).readers
      writer := (acquire kind ⟨(tidFields v).readers, (tidFields v).writer⟩).writer } := by
  cases kind with
  | read =>
    have hlt := tidFields_readers_lt v
    simp only [free, Bool.and_eq_true, bne_iff_ne] at h
    exact tidFields_add_reader v (by omega)
  | write =>
    simp only [free, Bool.and_eq_true, Bool.not_eq_true'] at h
    exact tidFields_add_writer v h.2

-- An attempt on a row's own lock word takes the lock exactly when it is free.
def AcquiresAs (kind : LockKind) (r : RowState α) : Option (RowState α) → Prop
  | none => r.view.lock.free 31 kind = false
  | some r' => r.view.lock.free 31 kind = true ∧
      r'.view = { r.view with lock := r.view.lock.acquire kind } ∧ r'.WellFormed

theorem lockLocal_acquires (hr : r.WellFormed) (hm : r.lmeta.is_migrated = false)
    (kind : LockKind) : AcquiresAs kind r (r.lockLocal kind) := by
  have hlock : r.view.lock
      = ⟨(tidFields r.lmeta.tid).readers, (tidFields r.lmeta.tid).writer⟩ := by
    simp [view, hm]
  rw [lockLocal, unavailable_eq, ← hlock]
  cases hfree : r.view.lock.free 31 kind with
  | false => exact hfree
  | true =>
    have hacquire := tidFields_acquire (hlock ▸ hfree)
    refine ⟨hfree, ?_, ⟨hr.offset, fun h => ?_, hr.cxl⟩⟩
    · rw [hlock]
      simp [view, hm, hacquire, current]
    · exact absurd (hm.symm.trans h) (by decide)

theorem lockShared_acquires (hr : r.WellFormed) (h : r.IsCurrent row) (kind : LockKind) :
    AcquiresAs kind r (r.lockShared kind row) := by
  obtain ⟨hm, rfl⟩ := h
  have hlock := view_lock_of_current hm
  rw [lockShared, sharedUnavailable_eq]
  change AcquiresAs kind r (if (!free 31 kind ⟨r.current.fields.readers,
    r.current.fields.writer⟩) = true then none else _)
  rw [← hlock]
  cases hfree : r.view.lock.free 31 kind with
  | false => exact hfree
  | true =>
    have hacquire := fields_sharedAcquire (hlock ▸ hfree)
    refine ⟨hfree, ?_, ?_⟩
    · rw [view_onSmeta _ ⟨hm, rfl⟩, hacquire, hlock]
      simp [view, hm]
    · exact wellFormed_onSmeta hr fun _ => by rw [hacquire]

structure LocksAs (res : LockResult α) (v : RowView α) (ok : Bool) (c : Copy α) (copy : Bool) :
    Prop where
  view : res.row.view = v
  success : res.success = ok
  tid : res.tid = if c.valid then c.version else 0
  dest : res.dest = if ok && copy then some c.data else none
  wellFormed : res.row.WellFormed

theorem answer_refines (copy : Bool) {c : Copy α} (hr : r.WellFormed) (hc : c.valid = true)
    {tid : Word} (htid : tid = c.version) {src : α} (hsrc : src = c.data) {o : Option (RowState α)}
    (ho : AcquiresAs kind r o) :
    LocksAs (answer copy r tid src o)
      (if r.view.lock.free 31 kind then { r.view with lock := r.view.lock.acquire kind }
        else r.view)
      (r.view.lock.free 31 kind) c copy := by
  cases o with
  | none =>
    have hfree : r.view.lock.free 31 kind = false := ho
    refine ⟨?_, hfree.symm, ?_, ?_, hr⟩
    · simp [answer, hfree]
    · simp [answer, hc, htid]
    · simp [answer, hfree]
  | some r' =>
    obtain ⟨hfree, hview, hwf⟩ := ho
    refine ⟨?_, hfree.symm, ?_, ?_, hwf⟩
    · rw [if_pos hfree]
      exact hview
    · simp [answer, hc, htid]
    · simp [answer, hfree, hsrc]

theorem invalid_refines {c : Copy α} {copy : Bool} (hr : r.WellFormed) (hc : c.valid = false) :
    LocksAs ⟨r, false, 0, none⟩ r.view false c copy :=
  ⟨rfl, rfl, by simp [hc], by simp, hr⟩

structure RefreshesAs (res : RowState α × Option Word) (v : RowView α) : Prop where
  view : res.1.view = v.refresh
  tid : res.2 = if v.ownerSees.valid then some v.ownerSees.version else none
  data : v.ownerSees.valid = true → res.1.data = v.ownerSees.data
  migrated : res.1.lmeta.is_migrated = true
  wellFormed : res.1.WellFormed

theorem view_adoptShared (hr : r.WellFormed) (h : r.IsCurrent row) :
    (r.adoptShared row).view = { r.view with owner := r.view.shared, mod_in := false } := by
  obtain ⟨hm, rfl⟩ := h
  rw [← copyOf_sccOf hr ⟨hm, rfl⟩, adoptShared, view_onSmeta]
  · simp only [view, hm, TwoPLPashaMetadataShared.fields_clear_is_data_modified_since_moved_in,
      if_true, Bool.true_and]
    rfl
  · exact ⟨hm, rfl⟩

theorem wellFormed_adoptShared (hr : r.WellFormed) : (r.adoptShared row).WellFormed := by
  apply wellFormed_onSmeta
  · exact ⟨hr.offset, hr.scc, hr.cxl⟩
  · intro _
    simp

theorem refresh_refines (hr : r.WellFormed) (hm : r.lmeta.is_migrated = true) (host : Host) :
    RefreshesAs (r.refresh host) r.view := by
  have hcur : r.IsCurrent r.lmeta.migrated_row := ⟨hm, rfl⟩
  have hcopy : copyOf (r.sccOf r.lmeta.migrated_row) = r.view.shared := copyOf_sccOf hr hcur
  have hwf : (r.prepare_read host r.lmeta.migrated_row).WellFormed :=
    wellFormed_prepare_read r.lmeta.migrated_row hr host
  have hview := view_prepare_read r r.lmeta.migrated_row host
  have hmod : ((r.prepare_read host r.lmeta.migrated_row).smeta
      r.lmeta.migrated_row).is_data_modified_since_moved_in = r.view.mod_in := by
    simp [prepare_read, view, hm, current]
  have hvalid : (r.sccOf r.lmeta.migrated_row).valid = r.view.shared.valid :=
    congrArg Copy.valid hcopy
  have howner : r.lmeta.is_valid = r.view.owner.valid := rfl
  rw [refresh]
  simp only [hmod, sccOf_prepare_read, valid_flag_index,
    get_flag_valid, hvalid, lmeta_prepare_read, howner]
  cases hin : r.view.mod_in with
  | false =>
    have hsees : r.view.ownerSees = r.view.owner := by simp [RowView.ownerSees, hin]
    have hrefresh : r.view.refresh = r.view := by simp [RowView.refresh, hin]
    cases hv : r.view.owner.valid with
    | false =>
      refine ⟨hview.trans hrefresh.symm, ?_, ?_, hm, hwf⟩
      · simp [hsees, hv]
      · simp [hsees, hv]
    | true =>
      refine ⟨hview.trans hrefresh.symm, ?_, ?_, hm, hwf⟩
      · simp only [hsees, hv, if_true]
        rfl
      · intro _
        rw [hsees]
        rfl
  | true =>
    have hsees : r.view.ownerSees = r.view.shared := by simp [ownerSees, hin]
    cases hv : r.view.shared.valid with
    | false =>
      have hrefresh : r.view.refresh = r.view := by simp [RowView.refresh, hv]
      refine ⟨hview.trans hrefresh.symm, ?_, ?_, hm, hwf⟩
      · simp [hsees, hv]
      · simp [hsees, hv]
    | true =>
      have hrefresh : r.view.refresh
          = { r.view with owner := r.view.shared, mod_in := false } := by
        simp [RowView.refresh, hin, hv]
      refine ⟨?_, ?_, ?_, hm, wellFormed_adoptShared hwf⟩
      · rw [hrefresh, ← hview]
        exact view_adoptShared hwf hcur
      · rw [hsees, hv, ← hcopy]
        rfl
      · intro _
        rw [hsees, ← hcopy, ← sccOf_prepare_read r r.lmeta.migrated_row host]
        rfl

theorem localLock_refines (hr : r.WellFormed) (kind : LockKind) (copy : Bool) (host : Host) :
    LocksAs (localLock kind copy r host) (r.view.localLock kind) (r.view.localLocks kind)
      r.view.ownerSees copy := by
  cases hm : r.lmeta.is_migrated with
  | false =>
    have hsees : r.view.ownerSees = r.view.owner := by simp [RowView.ownerSees, view, hm]
    have hrefresh : r.view.refresh = r.view := by simp [RowView.refresh, view, hm]
    rw [localLock, RowView.localLock, RowView.localLocks, hsees, hrefresh, if_pos hm]
    cases hv : r.lmeta.is_valid with
    | false =>
      have hc : r.view.owner.valid = false := hv
      simpa [hc] using invalid_refines hr hc
    | true =>
      have hc : r.view.owner.valid = true := hv
      rw [if_neg (by simp)]
      simp only [hc, Bool.true_and]
      exact answer_refines copy hr hc rfl rfl (lockLocal_acquires hr hm kind)
  | true =>
    obtain ⟨hview, htid, hdata, hm', hwf⟩ := refresh_refines hr hm host
    rw [localLock, RowView.localLock, RowView.localLocks, if_neg (by simp [hm])]
    generalize r.refresh host = res at hview htid hdata hm' hwf ⊢
    obtain ⟨r', tid⟩ := res
    simp only at hview htid hdata hm' hwf
    cases hv : r.view.ownerSees.valid with
    | false =>
      rw [hv] at htid
      subst htid
      simpa [← hview] using invalid_refines hwf hv
    | true =>
      rw [hv] at htid
      subst htid
      have hans := answer_refines copy hwf hv rfl (hdata hv)
        (lockShared_acquires hwf ⟨hm', rfl⟩ kind)
      rw [hview, lock_refresh] at hans
      simpa using hans

theorem AcquiresAs.map_inc (row : Ptr) {o : Option (RowState α)} (ho : AcquiresAs kind r o)
    (inc : Bool) :
    AcquiresAs kind r (o.map fun r => if inc then r.onScc row fun d => d.inc_ref_cnt else r) := by
  cases o with
  | none => exact ho
  | some r' =>
    obtain ⟨hfree, hview, hwf⟩ := ho
    cases inc with
    | false => exact ⟨hfree, hview, hwf⟩
    | true => exact ⟨hfree, (view_inc_ref_cnt r' row).trans hview, wellFormed_onScc hwf _⟩

theorem remoteLock_refines (hr : r.WellFormed) (h : r.IsCurrent row) (kind : LockKind)
    (copy inc : Bool) (host : Host) :
    LocksAs (remoteLock kind copy inc r host row) (r.view.remoteLock kind)
      (r.view.remoteLocks kind) r.view.shared copy := by
  have hview := view_prepare_read r row host
  have hwf := wellFormed_prepare_read row hr host
  have hcopy : copyOf ((r.prepare_read host row).sccOf row) = r.view.shared := by
    rw [sccOf_prepare_read]
    exact copyOf_sccOf hr h
  have hshared : (r.prepare_read host row).view.shared
      = copyOf ((r.prepare_read host row).sccOf row) := by rw [hcopy, hview]
  rw [remoteLock, RowView.remoteLock, RowView.remoteLocks, ← hview]
  by_cases hv : ((r.prepare_read host row).sccOf row).get_flag
      valid_flag_index = false
  · have hc : (r.prepare_read host row).view.shared.valid = false := by
      rw [hshared]
      exact hv
    rw [if_pos hv]
    simp only [hc, Bool.false_and]
    exact invalid_refines hwf hc
  · have hc : (r.prepare_read host row).view.shared.valid = true := by
      rw [hshared]
      exact Bool.not_eq_false _ ▸ hv
    rw [if_neg hv]
    simp only [hc, Bool.true_and]
    exact answer_refines copy hwf hc (by rw [hshared]; rfl) (by rw [hshared]; rfl)
      ((lockShared_acquires hwf h kind).map_inc row inc)

theorem answer_row (copy : Bool) (tid : Word) (src : α) (o : Option (RowState α)) :
    (answer copy r tid src o).row = o.getD r := by
  cases o <;> rfl

theorem lockShared_stale (h : ¬ r.IsCurrent row) {r' : RowState α}
    (hlock : r.lockShared kind row = some r') :
    r'.view = r.view ∧ (r.WellFormed → r'.WellFormed) := by
  rw [lockShared] at hlock
  split at hlock
  · cases hlock
  · cases hlock
    exact ⟨view_onSmeta_of_not_current _ h,
      fun hr => wellFormed_onSmeta hr fun hcur => absurd hcur h⟩

theorem valid_of_remoteLock {copy inc : Bool} {host : Host}
    (h : (remoteLock kind copy inc r host row).success = true) : (r.sccOf row).valid = true := by
  rw [remoteLock] at h
  split at h
  · cases h
  · rename_i hvalid
    rw [sccOf_prepare_read] at hvalid
    simpa using hvalid

-- Through a pointer to another block, or with the row not migrated, a lock call
-- leaves the row as it is, whatever it answers.
theorem remoteLock_stale (h : ¬ r.IsCurrent row) (kind : LockKind) (copy inc : Bool)
    (host : Host) :
    (remoteLock kind copy inc r host row).row.view = r.view ∧
      (r.WellFormed → (remoteLock kind copy inc r host row).row.WellFormed) := by
  have hview := view_prepare_read r row host
  have hnot : ¬ (r.prepare_read host row).IsCurrent row := h
  rw [remoteLock]
  split
  · exact ⟨hview, fun hr => wellFormed_prepare_read row hr host⟩
  · rw [answer_row]
    cases hlock : (r.prepare_read host row).lockShared kind row with
    | none => exact ⟨hview, fun hr => wellFormed_prepare_read row hr host⟩
    | some r' =>
      obtain ⟨hview', hwf'⟩ := lockShared_stale hnot hlock
      cases inc with
      | false =>
        exact ⟨hview'.trans hview, fun hr => hwf' (wellFormed_prepare_read row hr host)⟩
      | true =>
        exact ⟨(view_inc_ref_cnt r' row).trans (hview'.trans hview),
          fun hr => wellFormed_onScc (hwf' (wellFormed_prepare_read row hr host)) _⟩

end Lock

section Release

variable {r r' : RowState α} {row : Ptr}

theorem finish_write_refines {host : Host} (h : r.finish_write host row = some r') :
    r'.view = r.view ∧ (r.WellFormed → r'.WellFormed) := by
  rw [finish_write, map_eq_some_iff] at h
  obtain ⟨m, hm, rfl⟩ := h
  have hfields := (r.smeta row).fields_finish_write hm
  by_cases hcur : r.IsCurrent row
  · obtain ⟨hmig, rfl⟩ := hcur
    refine ⟨?_, fun hr => wellFormed_onSmeta hr fun _ => congrArg _ hfields⟩
    rw [view_onSmeta _ ⟨hmig, rfl⟩, hfields]
    simp [view, hmig, current]
  · exact ⟨view_onSmeta_of_not_current _ hcur,
      fun hr => wellFormed_onSmeta hr fun hc => absurd hc hcur⟩

-- A release touches the lock word alone; if the lock was held it is given back.
structure ReleasesAs (kind : LockKind) (r r' : RowState α) : Prop where
  view : r'.view = { r.view with lock := r'.view.lock }
  lock : r.view.lock.held kind → r'.view.lock = r.view.lock.release kind
  wellFormed : r'.WellFormed

theorem remoteLockRelease_refines (kind : LockKind) (hr : r.WellFormed) (h : r.IsCurrent row) :
    ReleasesAs kind r (r.remoteLockRelease kind row) := by
  obtain ⟨hm, rfl⟩ := h
  have hlock := view_lock_of_current hm
  cases kind with
  | read =>
    have hexcept := r.current.fields_decrease_reader_count_except
    have hview : (r.remote_read_lock_release r.lmeta.migrated_row).view = _ :=
      view_onSmeta (fun m => m.decrease_reader_count) ⟨hm, rfl⟩
    refine ⟨?_, fun hheld => ?_, wellFormed_onSmeta hr fun _ => by rw [hexcept]⟩
    · rw [remoteLockRelease, hview, hexcept]
      simp [view, hm]
    · rw [hlock] at hheld
      rw [remoteLockRelease, hview, r.current.fields_decrease_reader_count hheld, hlock]
      rfl
  | write =>
    have hview : (r.remote_write_lock_release r.lmeta.migrated_row).view = _ :=
      view_onSmeta (fun m => m.clear_write_locked) ⟨hm, rfl⟩
    refine ⟨?_, fun _ => ?_, wellFormed_onSmeta hr fun _ => by simp⟩
    · rw [remoteLockRelease, hview]
      simp [view, hm]
    · rw [remoteLockRelease, hview, hlock]
      simp [LockView.release]

theorem remoteLockRelease_stale (kind : LockKind) (h : ¬ r.IsCurrent row) :
    (r.remoteLockRelease kind row).view = r.view ∧
      (r.WellFormed → (r.remoteLockRelease kind row).WellFormed) := by
  cases kind with
  | read | write => exact ⟨view_onSmeta_of_not_current _ h,
      fun hr => wellFormed_onSmeta hr fun hc => absurd hc h⟩

theorem releasesAs_of_sub {kind : LockKind} {off : Nat} (hr : r.WellFormed)
    (hm : r.lmeta.is_migrated = false) (hoff : 58 ≤ off)
    (hlock : r.view.lock.held kind →
      LockView.mk (tidFields (r.lmeta.tid - 1#64 <<< off)).readers
        (tidFields (r.lmeta.tid - 1#64 <<< off)).writer = r.view.lock.release kind) :
    ReleasesAs kind r { r with lmeta := { r.lmeta with tid := r.lmeta.tid - 1#64 <<< off } } := by
  refine ⟨?_, fun hheld => ?_, hr.offset, fun h => absurd h (by simp [hm]), hr.cxl⟩
  · have hversion := version_sub r.lmeta.tid hoff
    simp only [view, hm, hversion]
    rfl
  · rw [← hlock hheld]
    simp [view, hm]

theorem lockRelease_refines (kind : LockKind) (hr : r.WellFormed) :
    ReleasesAs kind r (r.lockRelease kind) := by
  cases hm : r.lmeta.is_migrated with
  | true =>
    have hremote := remoteLockRelease_refines kind hr ⟨hm, rfl⟩
    cases kind with
    | read =>
      rw [lockRelease, read_lock_release, if_neg (by simp [hm])]
      exact hremote
    | write =>
      rw [lockRelease, write_lock_release, if_neg (by simp [hm])]
      exact hremote
  | false =>
    have hlock : r.view.lock
        = ⟨(tidFields r.lmeta.tid).readers, (tidFields r.lmeta.tid).writer⟩ := by
      simp [view, hm]
    cases kind with
    | read =>
      rw [lockRelease, read_lock_release, if_pos hm]
      refine releasesAs_of_sub hr hm (by decide) fun hheld => ?_
      rw [hlock] at hheld ⊢
      rw [tidFields_sub_reader _ hheld]
      rfl
    | write =>
      rw [lockRelease, write_lock_release, if_pos hm]
      refine releasesAs_of_sub hr hm (by decide) fun hheld => ?_
      rw [hlock] at hheld ⊢
      rw [tidFields_sub_writer _ hheld]
      rfl

variable {new_value : Word}

theorem remote_write_lock_release_version_refines {host : Host} (hr : r.WellFormed)
    (h : r.IsCurrent row)
    (hrel : r.remote_write_lock_release_version host row new_value = some r') :
    r'.view = r.view.releaseShared new_value ∧ r'.WellFormed := by
  obtain ⟨hm, rfl⟩ := h
  have hwf : (r.onSmeta r.lmeta.migrated_row fun m => m.clear_write_locked).WellFormed :=
    wellFormed_onSmeta hr fun _ => by simp
  have hcur : (r.onSmeta r.lmeta.migrated_row
      fun m => m.clear_write_locked).IsCurrent r.lmeta.migrated_row := ⟨hm, rfl⟩
  obtain ⟨hview, hwf'⟩ := finish_write_refines hrel
  refine ⟨?_, hwf' (wellFormed_onScc hwf _)⟩
  rw [hview, view_onScc hwf hcur, view_onSmeta _ ⟨hm, rfl⟩]
  have hcopy := copyOf_sccOf hr ⟨hm, rfl⟩
  simp only [releaseShared, ← hcopy]
  simp [LockView.release, view, hm, copyOf, sccOf]

theorem remote_write_lock_release_version_stale {host : Host} (h : ¬ r.IsCurrent row)
    (hrel : r.remote_write_lock_release_version host row new_value = some r') :
    EditsShared (fun c => { c with version := remove_lock_bit new_value }) r.view r'.view ∧
      (r.WellFormed → r'.WellFormed) := by
  obtain ⟨hview, hwf⟩ := finish_write_refines hrel
  refine ⟨?_, fun hr => hwf (wellFormed_onScc (wellFormed_onSmeta hr fun hc => absurd hc h) _)⟩
  rw [hview, ← view_onSmeta_of_not_current (fun m => m.clear_write_locked) h]
  exact view_onScc_editsShared fun _ => rfl

theorem write_lock_release_version_refines {host : Host} (hr : r.WellFormed)
    (hrel : r.write_lock_release_version host new_value = some r') :
    r'.view = r.view.releaseVersion new_value ∧ r'.WellFormed := by
  rw [write_lock_release_version] at hrel
  cases hm : r.lmeta.is_migrated with
  | true =>
    rw [if_neg (by simp [hm])] at hrel
    have hview : r.view.releaseVersion new_value = r.view.releaseShared new_value := by
      simp [releaseVersion, view, hm]
    rw [hview]
    exact remote_write_lock_release_version_refines hr ⟨hm, rfl⟩ hrel
  | false =>
    rw [if_pos hm, some.injEq] at hrel
    subst hrel
    refine ⟨?_, hr.offset, fun h => absurd h (by simp [hm]), hr.cxl⟩
    simp only [releaseVersion, view, hm, toNat_read_lock_num]
    rfl

end Release

section Update

variable {r r' : RowState α} {row : Ptr}

theorem remote_update_refines (hr : r.WellFormed) (h : r.IsCurrent row) (value : α) :
    (r.remote_update row value).view = r.view.updateShared value ∧
      (r.remote_update row value).WellFormed := by
  have hcopy := copyOf_sccOf hr h
  have hcur : (r.onScc row fun d => { d with data := value }).IsCurrent row := h
  refine ⟨?_, wellFormed_onSmeta (wellFormed_onScc hr _) fun _ => by simp⟩
  rw [remote_update, view_onSmeta _ hcur, view_onScc hr h]
  simp only [updateShared, ← hcopy]
  simp [view, h.1, copyOf, current]

theorem remote_update_stale (h : ¬ r.IsCurrent row) (value : α) :
    EditsShared (fun c => { c with data := value }) r.view (r.remote_update row value).view ∧
      (r.WellFormed → (r.remote_update row value).WellFormed) := by
  have hnot : ¬ (r.onScc row fun d => { d with data := value }).IsCurrent row := h
  refine ⟨?_, fun hr => wellFormed_onSmeta (wellFormed_onScc hr _) fun hc => absurd hc hnot⟩
  rw [remote_update, view_onSmeta_of_not_current _ hnot]
  exact view_onScc_editsShared fun _ => rfl

theorem update_refines (hr : r.WellFormed) (value : α) :
    (r.update value).view = r.view.update value ∧ (r.update value).WellFormed := by
  cases hm : r.lmeta.is_migrated with
  | true =>
    have hview : r.view.update value = r.view.updateShared value := by
      simp [RowView.update, view, hm]
    rw [update, if_neg (by simp [hm]), hview]
    exact remote_update_refines hr ⟨hm, rfl⟩ value
  | false =>
    rw [update, if_pos hm]
    refine ⟨?_, hr.offset, fun h => absurd h (by simp [hm]), hr.cxl⟩
    simp only [view, hm]
    rfl

variable {is_valid is_insert : Bool}

theorem remote_modify_tuple_valid_bit_refines {host : Host} (hr : r.WellFormed)
    (h : r.IsCurrent row)
    (hmod : r.remote_modify_tuple_valid_bit host row is_valid is_insert = some r') :
    r'.view = r.view.setValid is_valid ∧ r'.WellFormed := by
  have hcopy := copyOf_sccOf hr h
  have hmig : r.view.migrated = true := h.1
  have hset : (r.onScc row fun d => if is_valid then d.set_flag 0 else d.clear_flag 0).view
      = r.view.setValid is_valid := by
    rw [view_onScc hr h, setValid, if_pos hmig, ← hcopy]
    cases is_valid <;> simp [copyOf]
  have hwf : (r.onScc row fun d => if is_valid then d.set_flag 0
      else d.clear_flag 0).WellFormed := wellFormed_onScc hr _
  cases is_insert with
  | false =>
    cases hmod
    exact ⟨hset, hwf⟩
  | true =>
    obtain ⟨hview, hwf'⟩ := finish_write_refines hmod
    exact ⟨(hview.trans (view_prepare_read _ row host)).trans hset,
      hwf' (wellFormed_prepare_read row hwf host)⟩

theorem remote_modify_tuple_valid_bit_stale {host : Host}
    (hmod : r.remote_modify_tuple_valid_bit host row is_valid is_insert = some r') :
    EditsShared (fun c => { c with valid := is_valid }) r.view r'.view ∧
      (r.WellFormed → r'.WellFormed) := by
  have hset : EditsShared (fun c => { c with valid := is_valid }) r.view
      (r.onScc row fun d => if is_valid then d.set_flag 0 else d.clear_flag 0).view :=
    view_onScc_editsShared fun d => by cases is_valid <;> simp [copyOf]
  rw [remote_modify_tuple_valid_bit] at hmod
  cases is_insert with
  | false =>
    cases hmod
    exact ⟨hset, fun hr => wellFormed_onScc hr _⟩
  | true =>
    obtain ⟨hview, hwf⟩ := finish_write_refines hmod
    refine ⟨?_, fun hr => hwf (wellFormed_prepare_read row (wellFormed_onScc hr _) host)⟩
    rw [hview, view_prepare_read]
    exact hset

theorem modify_tuple_valid_bit_refines {host : Host} (hr : r.WellFormed)
    (hmod : r.modify_tuple_valid_bit host is_valid is_insert = some r') :
    r'.view = r.view.setValid is_valid ∧ r'.WellFormed := by
  rw [modify_tuple_valid_bit] at hmod
  cases hm : r.lmeta.is_migrated with
  | true =>
    rw [if_pos hm] at hmod
    exact remote_modify_tuple_valid_bit_refines hr ⟨hm, rfl⟩ hmod
  | false =>
    rw [if_neg (by simp [hm]), some.injEq] at hmod
    subst hmod
    refine ⟨?_, hr.offset, fun h => absurd h (by simp [hm]), hr.cxl⟩
    simp only [setValid, view, hm]
    rfl

end Update

end RowState

end Tigon.TwoPLPasha
