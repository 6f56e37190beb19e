import Tigon.TwoPLPasha.RowSystem.MutualExclusion
import Tigon.TwoPLPasha.RowView.Agreement

namespace Tigon.TwoPLPasha

open Tigon.Library

def RowState.localValidity {α : Type} (r : RowState α) : Bool :=
  if r.lmeta.is_migrated && r.current.is_data_modified_since_moved_in then
    (r.sccOf r.lmeta.migrated_row).get_flag TwoPLPashaSharedDataSCC.valid_flag_index
  else r.lmeta.is_valid

theorem RowState.localValidity_eq {α : Type} {r : RowState α} (hr : r.WellFormed) :
    r.localValidity = r.view.ownerSees.valid := by
  rw [localValidity, RowView.ownerSees]
  by_cases hm : r.lmeta.is_migrated = true
  · have hshared := congrArg Copy.valid (copyOf_sccOf hr ⟨hm, rfl⟩)
    have hin : r.view.mod_in = r.current.is_data_modified_since_moved_in := by
      simp [view, hm]
    rw [hm, Bool.true_and, hin]
    split
    · exact hshared
    · rfl
  · have hin : r.view.mod_in = false := by simp [view, hm]
    rw [eq_false_of_ne_true hm, hin]
    rfl

namespace RowSystem

variable {α C : Type} [DecidableEq C]

-- An insert becomes valid on a row that is not migrated, or on a migrated one whose
-- modified flag sends the owner to the shared copy.
def ValidatesVisibly (s : RowSystem α C) : RowLabel α C → Prop
  | .commitInsert =>
    s.row.lmeta.is_migrated = true → s.row.current.is_data_modified_since_moved_in = true
  | .commitRemoteInsert c =>
    s.Current (s.access c).pointer ∧ s.row.current.is_data_modified_since_moved_in = true
  | _ => True

omit [DecidableEq C] in
instance (s : RowSystem α C) (e : RowLabel α C) : Decidable (s.ValidatesVisibly e) := by
  rcases e with ⟨⟩ <;> unfold ValidatesVisibly <;> infer_instance

structure ValidInv (s : RowSystem α C) : Prop where
  wellFormed : s.row.WellFormed
  valid : s.row.view.CopiesAgree Copy.valid (s.life == .committed)

variable {cfg : Config C} {s t : RowSystem α C} {e : RowLabel α C}

theorem copiesAgree_commit {v : RowView α} {x : Bool} (h : v.CopiesAgree Copy.valid x)
    (hvisible : v.migrated = true → v.mod_in = true) :
    (v.setValid true).CopiesAgree Copy.valid true := by
  rw [RowView.setValid]
  split
  · rename_i hm
    have hin := hvisible hm
    exact ⟨fun _ => rfl, fun hfalse => absurd (hin.symm.trans hfalse) (by decide), h.mod_in⟩
  · rename_i hm
    exact ⟨fun hm' => absurd hm' hm, fun _ => rfl, h.mod_in⟩

theorem validInv_step (hinv : ValidInv s) (hok : s.ValidatesVisibly e)
    (h : step cfg s e = some t) : ValidInv t := by
  obtain ⟨hwf, hval⟩ := hinv
  obtain ⟨hstep, hwf'⟩ := viewStep_of_step hwf h
  have hπ : ∀ (c : Copy α) (d : α), Copy.valid { c with data := d } = c.valid := fun _ _ => rfl
  have hflag : s.row.lmeta.is_migrated = true →
      s.row.current.is_data_modified_since_moved_in = true → s.row.view.mod_in = true :=
    fun hm hmod => by simpa [RowState.view, hm] using hmod
  refine ⟨hwf', ?_⟩
  cases hstep with
  | keep hview _ hframe | look _ _ hview _ hframe
  | remoteLockStale _ _ _ hview _ hframe
  | releaseStale _ _ hview _ hframe => rw [hview, hframe.life]; exact hval
  | localLock _ hview _ hframe => rw [hview, hframe.life]; exact hval.localLock _
  | remoteLock _ _ _ hview _ hframe => rw [hview, hframe.life]; exact hval.remoteLock _
  | update _ _ hview _ hframe => rw [hview, hframe.life]; exact hval.update hπ _
  | updateStale _ _ hview _ hframe =>
    rw [hframe.life]
    exact hval.editsShared hview fun _ => rfl
  | release _ _ hview _ _ hframe => rw [hview, hframe.life]; exact hval.of_lock _
  | releaseVersion _ _ hview _ hlife _ _ =>
    rw [hview, hlife]
    exact hval.releaseVersion (fun _ _ => rfl) _
  | releaseVersionStale _ _ hview _ hlife =>
    rw [hlife]
    exact hval.editsShared hview fun _ => rfl
  | moveIn hm _ hview _ hframe => rw [hview, hframe.life]; exact hval.moveIn hπ hm ..
  | moveOut hm hview _ hframe => rw [hview, hframe.life]; exact hval.moveOut hπ hm _
  | commitInsert _ hview _ hlife _ _ =>
    rw [hview, hlife]
    exact copiesAgree_commit hval fun hm => hflag hm (hok hm)
  | commitRemoteInsert _ _ hview _ hlife _ _ =>
    rw [hview, hlife]
    exact copiesAgree_commit hval fun hm => hflag hm hok.2
  | @commitRemoteInsertStale _ c row hc hstale _ _ _ _ _ =>
    exact absurd (hok.1 row (by rw [hc]; rfl)) hstale

omit [DecidableEq C] in
theorem validInv_start (smeta : Ptr → TwoPLPashaMetadataShared)
    (scc : Word → TwoPLPashaSharedDataSCC α) (value : α) (life : Life) :
    ValidInv (start smeta scc value life : RowSystem α C) :=
  ⟨wellFormed_start smeta scc value life, nofun, fun _ => rfl, nofun⟩

-- In every run whose inserts become valid visibly, the owner sees the row exactly when
-- its insert has committed, and can then lock it whenever the lock is free.
theorem local_path_sees_validity (cfg : Config C)
    (smeta : Ptr → TwoPLPashaMetadataShared) (scc : Word → TwoPLPashaSharedDataSCC α)
    (value : α) (life : Life) {s : RowSystem α C}
    (hreach : Reach (step cfg) ValidatesVisibly (start smeta scc value life) s) :
    s.row.localValidity = decide (s.life = .committed) ∧
    (s.life = .committed → ∀ c kind copy res,
      s.lockCall cfg (.localLock c kind copy) = some res →
      s.row.view.lock.free 31 kind = true → res.success = true) := by
  obtain ⟨hwf, hval⟩ := hreach.invariant (validInv_start smeta scc value life)
    fun _ _ _ hinv hok h => validInv_step hinv hok h
  have hsees : s.row.view.ownerSees.valid = (s.life == .committed) := hval.ownerSees
  refine ⟨?_, fun hlife c kind copy res hcall hfree => ?_⟩
  · rw [RowState.localValidity_eq hwf, hsees, beq_eq_decide]
  · rcases lockCall_cases hcall with ⟨c', kind', he, rfl⟩ | ⟨_, _, _, _, he, -, -⟩
    · cases he
      rw [(RowState.localLock_refines hwf kind _ cfg.owner).success, RowView.localLocks, hsees,
        hlife, hfree]
      rfl
    · cases he

theorem committed_insert_is_lockable :
    ∃ s : RowSystem Nat (Fin 2),
      Reach (step (twoHosts sccOn)) ValidatesVisibly
        (start (fun _ => ⟨0⟩) (fun _ => zeroed) 7 (.inserting false)) s ∧
      s.life = .committed ∧ (s.row.write_lock 0).success = true := by
  obtain ⟨s, hreach, hlife, hfree⟩ := exists_reach_of_run (step (twoHosts sccOn))
    ValidatesVisibly (start (fun _ => ⟨0⟩) (fun _ => zeroed) 7 (.inserting false))
    [.commitInsert, .moveIn ⟨some 1, some (64, zeroed)⟩ false, .moveOut,
      .moveIn ⟨some 2, none⟩ false]
    (fun s => s.life = .committed ∧ s.row.view.lock.free 31 .write = true) (by decide)
  exact ⟨s, hreach, hlife, (local_path_sees_validity (twoHosts sccOn) _ _ _ _ hreach).2 hlife
    1 .write false _ rfl hfree⟩

-- A remote insert commits on the migrated placeholder: the shared valid flag is set, the
-- modified flag is not, and the owner goes on looking at its own invalid copy.
theorem remote_insert_stays_invalid :
    ∃ s : RowSystem Nat (Fin 2),
      Reach (step (twoHosts sccOn)) (fun _ _ => True)
        (start (fun _ => ⟨0⟩) (fun _ => zeroed) 7 (.inserting true)) s ∧
      s.life = .committed ∧ s.row.view.lock = ⟨0, false⟩ ∧
      (s.row.read_lock 0).success = false ∧ (s.row.write_lock 0).success = false :=
  exists_reach_of_run _ _ _
    [.moveIn ⟨some 1, some (64, zeroed)⟩ true, .searchInserted 0, .commitRemoteInsert 0] _
    (by decide)

end RowSystem

end Tigon.TwoPLPasha
