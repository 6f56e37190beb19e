import Tigon.TwoPLPasha.RowSystem.Freshness

namespace Tigon.TwoPLPasha

open Option RowState Tigon.Library

namespace RowView.DataAgrees

variable {α : Type} {cur : α} {v : RowView α}

theorem moveIn_copied (h : DataAgrees cur v)
    (hm : v.migrated = false) {optimize : Bool} (hcopy : v.mod_out = true ∨ optimize = false)
    (p : Ptr) (prev_real next_real : Bool) (fresh : α) :
    DataAgrees cur (v.moveIn optimize p prev_real next_real fresh) := by
  have hin : v.mod_in = false := by
    cases hmod : v.mod_in with
    | false => rfl
    | true => exact absurd (h.mod_in hmod) (by simp [hm])
  refine ⟨fun _ => ?_, fun _ => h.owner hin, nofun, fun _ => rfl⟩
  have howner := h.owner hin
  rcases hcopy with hout | hopt
  · simpa [RowView.moveIn, hout] using howner
  · simpa [RowView.moveIn, hopt] using howner

theorem updateShared (h : DataAgrees cur v)
    (hm : v.migrated = true) (value : α) : DataAgrees value (v.updateShared value) :=
  ⟨fun _ => rfl, nofun, fun _ => hm, h.cached⟩

theorem releaseShared (h : DataAgrees cur v)
    (new_value : Word) : DataAgrees cur (v.releaseShared new_value) :=
  ⟨h.shared, h.owner, h.mod_in, h.cached⟩

end RowView.DataAgrees

namespace RowState

variable {α : Type}

def localCommit (owner : Host) (r : RowState α) (value : α) (new_value : Word) :
    Option (RowState α × Bool) :=
  let res := r.take_write_lock_and_read owner
  if res.success then
    ((res.row.update value).write_lock_release_version owner new_value).map (·, true)
  else some (res.row, false)

-- The same from another host, with a reference on the row from its lookup to the end.
def remoteCommit (host : Host) (r : RowState α) (value : α) (new_value : Word) :
    Option (RowState α × Bool) :=
  match r.cxl with
  | none => some (r, false)
  | some p =>
    match r.get_migrated_row_latched p true with
    | (r, none) => some (r, false)
    | (r, some row) =>
      let res := r.remote_take_write_lock_and_read host row false
      if res.success then
        ((res.row.remote_update row value).remote_write_lock_release_version host row
          new_value).map fun r => (r.decrease_reference_count_via_ptr row, true)
      else some (res.row.decrease_reference_count_via_ptr row, false)

end RowState

-- One row under calls that are made one after another. `payload` is what the committed
-- updates have left.
structure PayloadSystem (α : Type) where
  row : RowState α
  payload : α

inductive PayloadLabel (α : Type)
  | move_in (alloc : Allocation α) (inc_ref_cnt : Bool)
  | move_out
  | release_migrated_row
  | localCommit (value : α) (new_value : Word)
  | remoteCommit (host : Host) (value : α) (new_value : Word)

namespace PayloadSystem

variable {α : Type} (ctx : Context) (owner : Host)

def start (smeta : Ptr → TwoPLPashaMetadataShared) (scc : Word → TwoPLPashaSharedDataSCC α)
    (value : α) : PayloadSystem α :=
  ⟨init smeta scc value true, value⟩

def commit (s : PayloadSystem α) (value : α) (res : RowState α × Bool) : PayloadSystem α :=
  ⟨res.1, if res.2 then value else s.payload⟩

def step (s : PayloadSystem α) : PayloadLabel α → Option (PayloadSystem α)
  | .move_in alloc inc_ref_cnt =>
    -- an offset that does not fit its field is never handed out
    if ∀ b ∈ alloc.scc, b.1.toNat < 2 ^ 37 then
      (s.row.move_from_hashmap_to_shared_region ctx owner alloc inc_ref_cnt).map fun res =>
        { s with row := res.1 }
    else none
  | .move_out => some { s with row := (s.row.move_from_hashmap_to_partition ctx owner).1 }
  | .release_migrated_row =>
    s.row.cxl.map fun p => { s with row := s.row.decrease_reference_count_via_ptr p }
  | .localCommit value new_value =>
    (s.row.localCommit owner value new_value).map (s.commit value)
  | .remoteCommit host value new_value =>
    (s.row.remoteCommit host value new_value).map (s.commit value)

-- A move-in that leaves out the copy finds the block that the row was moved out of.
def CopiesOrReuses (s : PayloadSystem α) : PayloadLabel α → Prop
  | .move_in _ _ => ctx.enable_scc = true ∨ ctx.enable_migration_optimization = false ∨
      s.row.lmeta.is_data_modified_since_moved_out = true
  | _ => True

instance (s : PayloadSystem α) (l : PayloadLabel α) : Decidable (s.CopiesOrReuses ctx l) := by
  cases l <;> unfold CopiesOrReuses <;> infer_instance

variable {ctx owner} {s s' : PayloadSystem α} {r' : RowState α}

structure Inv (s : PayloadSystem α) : Prop where
  wf : s.row.WellFormed
  data : s.row.view.DataAgrees s.payload

theorem dataAgrees_moveIn {alloc : Allocation α} {inc : Bool} {res : migration_result}
    (hinv : s.Inv) (hok : s.CopiesOrReuses ctx (.move_in alloc inc))
    (halloc : ∀ b ∈ alloc.scc, b.1.toNat < 2 ^ 37)
    (h : s.row.move_from_hashmap_to_shared_region ctx owner alloc inc = some (r', res)) :
    r'.WellFormed ∧ r'.view.DataAgrees s.payload := by
  obtain ⟨hmoves, hwf⟩ := moveIn_refines fields_id_of_not_real hinv.wf
    (fun o d ho => halloc (o, d) ho) h
  refine ⟨hwf, ?_⟩
  cases hmoves with
  | success hm hp hfresh hview =>
    rw [hview]
    rcases hok with hscc | hopt | hout
    · exact hinv.data.moveIn hm (hfresh hscc) _ _ _ _
    · exact hinv.data.moveIn_copied hm (.inr hopt) _ _ _ _
    · exact hinv.data.moveIn_copied hm (.inl hout) _ _ _ _
  | already hm hview | outOfMemory hview =>
    rw [hview]
    exact hinv.data

theorem dataAgrees_moveOut (ctx : Context) (owner : Host) (hinv : s.Inv) :
    (s.row.move_from_hashmap_to_partition ctx owner).1.WellFormed ∧
      (s.row.move_from_hashmap_to_partition ctx owner).1.view.DataAgrees s.payload := by
  obtain ⟨hview, hwf⟩ := moveOut_refines ctx owner hinv.wf
  refine ⟨hwf, ?_⟩
  change (s.row.moveOut ctx owner).1.view.DataAgrees s.payload
  rcases hview with ⟨hview, hm⟩ | hview
  · rw [hview]
    exact hinv.data.moveOut hm _
  · rw [hview]
    exact hinv.data

theorem inv_localCommit {value : α} {new_value : Word} {res : RowState α × Bool} (hinv : s.Inv)
    (h : s.row.localCommit owner value new_value = some res) : (s.commit value res).Inv := by
  have hlock := localLock_refines hinv.wf .write true owner
  have hdata := hinv.data.localLock .write
  rw [← hlock.view] at hdata
  simp only [localCommit] at h
  split at h
  · obtain ⟨r, hrelease, rfl⟩ := map_eq_some_iff.mp h
    obtain ⟨hview, hwf⟩ := update_refines hlock.wellFormed value
    obtain ⟨hview', hwf'⟩ := write_lock_release_version_refines hwf hrelease
    refine ⟨hwf', ?_⟩
    change r.view.DataAgrees value
    rw [hview', hview]
    exact (hdata.update value).releaseVersion new_value
  · cases h
    exact ⟨hlock.wellFormed, hdata⟩

theorem isCurrent_of_view {r r' : RowState α} {kind : LockKind} {row : Ptr}
    (hview : r'.view = r.view.remoteLock kind) (h : r.IsCurrent row) : r'.IsCurrent row := by
  have hsame : r'.view.migrated = r.view.migrated ∧ r'.view.row = r.view.row := by
    rw [hview, RowView.remoteLock]
    split <;> exact ⟨rfl, rfl⟩
  exact ⟨hsame.1.trans h.1, hsame.2.trans h.2⟩

theorem inv_remoteCommit {host : Host} {value : α} {new_value : Word} {res : RowState α × Bool}
    (hinv : s.Inv) (h : s.row.remoteCommit host value new_value = some res) :
    (s.commit value res).Inv := by
  cases hcxl : s.row.cxl with
  | none =>
    simp only [remoteCommit, hcxl] at h
    cases h
    exact hinv
  | some p =>
    have hcur := hinv.wf.isCurrent_of_cxl hcxl
    have hview := view_get_migrated_row_latched s.row p true
    have hwf := wellFormed_get_migrated_row_latched p hinv.wf true
    have hlmeta := lmeta_get_migrated_row_latched s.row p true
    have hrow : ∀ q, (s.row.get_migrated_row_latched p true).2 = some q → q = p :=
      fun q hq => get_migrated_row_latched_eq_some s.row p hq
    simp only [remoteCommit, hcxl] at h
    generalize s.row.get_migrated_row_latched p true = got at h hview hwf hlmeta hrow
    obtain ⟨r, found⟩ := got
    have hdata : r.view.DataAgrees s.payload := hview ▸ hinv.data
    cases found with
    | none =>
      cases h
      exact ⟨hwf, hdata⟩
    | some row =>
      obtain rfl := hrow row rfl
      have hcur : r.IsCurrent row := by
        unfold RowState.IsCurrent
        rw [hlmeta]
        exact hcur
      have hlock := remoteLock_refines hwf hcur .write true false host
      have hlocked := hdata.remoteLock .write
      rw [← hlock.view] at hlocked
      have hstill := isCurrent_of_view hlock.view hcur
      simp only at h
      split at h
      · obtain ⟨r', hrelease, rfl⟩ := map_eq_some_iff.mp h
        obtain ⟨hview₁, hwf₁⟩ := remote_update_refines hlock.wellFormed hstill value
        obtain ⟨hview₂, hwf₂⟩ :=
          remote_write_lock_release_version_refines hwf₁ hstill hrelease
        refine ⟨wellFormed_onScc hwf₂ _, ?_⟩
        change (r'.decrease_reference_count_via_ptr row).view.DataAgrees value
        rw [view_decrease_reference_count_via_ptr, hview₂, hview₁]
        exact (hlocked.updateShared hstill.1 value).releaseShared new_value
      · cases h
        refine ⟨wellFormed_onScc hlock.wellFormed _, ?_⟩
        change (decrease_reference_count_via_ptr _ row).view.DataAgrees s.payload
        rw [view_decrease_reference_count_via_ptr]
        exact hlocked

theorem inv_start (smeta : Ptr → TwoPLPashaMetadataShared)
    (scc : Word → TwoPLPashaSharedDataSCC α) (value : α) : (start smeta scc value).Inv := by
  refine ⟨⟨nofun, nofun, rfl⟩, ?_, fun _ => rfl, nofun, ?_⟩
  · rintro (hm | hout)
    · cases hm
    · cases hout
  · rintro (hm | hout)
    · cases hm
    · cases hout

theorem inv_step {l : PayloadLabel α} (hinv : s.Inv) (hok : s.CopiesOrReuses ctx l)
    (h : s.step ctx owner l = some s') : s'.Inv := by
  cases l with
  | move_in alloc inc =>
    simp only [step] at h
    split at h
    · rename_i halloc
      obtain ⟨⟨r, res⟩, hmove, rfl⟩ := map_eq_some_iff.mp h
      obtain ⟨hwf, hdata⟩ := dataAgrees_moveIn hinv hok halloc hmove
      exact ⟨hwf, hdata⟩
    · cases h
  | move_out =>
    cases h
    obtain ⟨hwf, hdata⟩ := dataAgrees_moveOut ctx owner hinv
    exact ⟨hwf, hdata⟩
  | release_migrated_row =>
    obtain ⟨p, -, rfl⟩ := map_eq_some_iff.mp h
    refine ⟨wellFormed_onScc hinv.wf _, ?_⟩
    change (s.row.decrease_reference_count_via_ptr p).view.DataAgrees s.payload
    rw [view_decrease_reference_count_via_ptr]
    exact hinv.data
  | localCommit value new_value =>
    obtain ⟨res, hcommit, rfl⟩ := map_eq_some_iff.mp h
    exact inv_localCommit hinv hcommit
  | remoteCommit host value new_value =>
    obtain ⟨res, hcommit, rfl⟩ := map_eq_some_iff.mp h
    exact inv_remoteCommit hinv hcommit

-- What a successful move-in leaves in the shared block and a move-out in the local row is
-- the payload of the last committed update.
theorem migration_preserves_payload {smeta : Ptr → TwoPLPashaMetadataShared}
    {scc : Word → TwoPLPashaSharedDataSCC α} {value : α}
    (hreach : Reach (step ctx owner) (CopiesOrReuses ctx) (start smeta scc value) s) :
    (∀ alloc inc r, s.CopiesOrReuses ctx (.move_in alloc inc) →
      (∀ b ∈ alloc.scc, b.1.toNat < 2 ^ 37) →
      s.row.move_from_hashmap_to_shared_region ctx owner alloc inc = some (r, .SUCCESS) →
      (r.sccOf r.lmeta.migrated_row).data = s.payload) ∧
    ∀ r, s.row.move_from_hashmap_to_partition ctx owner = (r, true) → r.data = s.payload := by
  have hinv : s.Inv := hreach.invariant (inv_start smeta scc value)
    fun _ _ _ hinv hok hstep => inv_step hinv hok hstep
  constructor
  · intro alloc inc r hok halloc hmove
    obtain ⟨hwf, hdata⟩ := dataAgrees_moveIn hinv hok halloc hmove
    have hm : r.lmeta.is_migrated = true := by
      obtain ⟨hmoves, -⟩ := moveIn_refines fields_id_of_not_real hinv.wf
        (fun o d ho => halloc (o, d) ho) hmove
      cases hmoves with
      | success _ _ _ hview => exact congrArg RowView.migrated hview
    have hcopy := congrArg Copy.data (copyOf_sccOf hwf ⟨hm, rfl⟩)
    exact hcopy.trans (hdata.shared (.inl hm))
  · intro r hmove
    obtain ⟨-, hdata⟩ := dataAgrees_moveOut ctx owner hinv
    rw [hmove] at hdata
    refine hdata.owner ?_
    have hm : r.lmeta.is_migrated = false := by
      unfold move_from_hashmap_to_partition moveOut at hmove
      split at hmove
      · split at hmove
        · cases hmove
        · obtain ⟨rfl, -⟩ := Prod.mk.inj hmove
          rfl
      · rename_i hnot
        obtain ⟨rfl, -⟩ := Prod.mk.inj hmove
        exact eq_false_of_ne_true hnot
    simp [view, hm]

def loadedRow : PayloadSystem Nat := start (fun _ => ⟨0⟩) (fun _ => ⟨0, 0, 0, 0⟩) 5

def blocks (p : Ptr) (o : Word) (data : Nat) : Allocation Nat :=
  ⟨some p, some (o, ⟨0, 0, 0, data⟩)⟩

-- With SCC the second move-in leaves out the copy and finds the payload in the cached block.
theorem migration_preserves_payload_in_cached_block :
    ∃ s : PayloadSystem Nat, s.payload = 7 ∧
      s.row.lmeta.is_data_modified_since_moved_out = false ∧
      ∃ r, s.row.move_from_hashmap_to_shared_region ⟨true, true⟩ 0 (blocks 2 128 9) false
          = some (r, .SUCCESS) ∧
        (r.sccOf r.lmeta.migrated_row).data = 7 := by
  obtain ⟨s, hreach, hpayload, hflag, hmove⟩ := exists_reach_of_run (step ⟨true, true⟩ 0)
    (CopiesOrReuses ⟨true, true⟩) loadedRow
    [.move_in (blocks 1 64 3) false, .remoteCommit 1 7 4, .move_out]
    (fun s => s.payload = 7 ∧ s.row.lmeta.is_data_modified_since_moved_out = false ∧
      (s.row.move_from_hashmap_to_shared_region ⟨true, true⟩ 0 (blocks 2 128 9) false).any
        (·.2 = .SUCCESS) = true) (by decide +kernel)
  obtain ⟨⟨r, res⟩, hmove, hres⟩ := (any_eq_true _ _).mp hmove
  obtain rfl := of_decide_eq_true hres
  refine ⟨s, hpayload, hflag, r, hmove, ?_⟩
  rw [← hpayload]
  exact (migration_preserves_payload hreach).1 _ _ r (.inl rfl) (by decide) hmove

theorem second_move_in_without_copy :
    ∃ s : PayloadSystem Nat, Reach (step ⟨false, true⟩ 0) (fun _ _ => True) loadedRow s ∧
      ∃ r, s.row.move_from_hashmap_to_shared_region ⟨false, true⟩ 0 (blocks 2 128 9) false
          = some (r, .SUCCESS) ∧
        (r.sccOf r.lmeta.migrated_row).data ≠ s.payload := by
  obtain ⟨s, hreach, hmove⟩ := exists_reach_of_run (step ⟨false, true⟩ 0) (fun _ _ => True)
    loadedRow [.move_in (blocks 1 64 3) false, .move_out]
    (fun s => (s.row.move_from_hashmap_to_shared_region ⟨false, true⟩ 0 (blocks 2 128 9) false).any
      (fun res => res.2 = .SUCCESS ∧ (res.1.sccOf res.1.lmeta.migrated_row).data ≠ s.payload) =
        true)
    (by decide +kernel)
  obtain ⟨⟨r, res⟩, hmove, hres⟩ := (any_eq_true _ _).mp hmove
  obtain ⟨rfl, hlost⟩ := of_decide_eq_true hres
  exact ⟨s, hreach, r, hmove, hlost⟩

end PayloadSystem

end Tigon.TwoPLPasha
