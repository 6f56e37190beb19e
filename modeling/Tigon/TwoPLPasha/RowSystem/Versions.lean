import Tigon.TwoPLPasha.RowSystem.MutualExclusion
import Tigon.TwoPLPasha.RowView.Agreement

namespace Tigon.TwoPLPasha

open RowState Tigon.Library

namespace RowSystem

variable {α C : Type} [DecidableEq C]

-- Remote lock calls go through the row's current pointer, and a version is installed
-- through it, without lock bits, and on a migrated row while the modified flag is set.
def InstallsVisibly (s : RowSystem α C) : RowLabel α C → Prop
  | .remoteLock c kind => s.LocksThroughCurrent (.remoteLock c kind)
  | .releaseVersion c new_value =>
    s.Current (s.access c).pointer ∧ remove_lock_bit new_value = new_value ∧
      (s.row.lmeta.is_migrated = true → s.row.current.is_data_modified_since_moved_in = true)
  | _ => True

omit [DecidableEq C] in
instance (s : RowSystem α C) (e : RowLabel α C) : Decidable (s.InstallsVisibly e) := by
  rcases e with ⟨⟩ <;> unfold InstallsVisibly <;> infer_instance

structure VersionInv (s : RowSystem α C) : Prop where
  wellFormed : s.row.WellFormed
  version : s.row.view.CopiesAgree Copy.version s.version

variable {cfg : Config C} {s t : RowSystem α C} {c : C} {e : RowLabel α C}

theorem versionInv_step (hinv : VersionInv s) (hok : s.InstallsVisibly e)
    (h : step cfg s e = some t) : VersionInv t := by
  obtain ⟨hwf, hver⟩ := hinv
  obtain ⟨hstep, hwf'⟩ := viewStep_of_step hwf h
  have hπ : ∀ (c : Copy α) (d : α), Copy.version { c with data := d } = c.version :=
    fun _ _ => rfl
  refine ⟨hwf', ?_⟩
  cases hstep with
  | keep hview _ hframe | look _ _ hview _ hframe
  | remoteLockStale _ _ _ hview _ hframe
  | releaseStale _ _ hview _ hframe => rw [hview, hframe.version]; exact hver
  | localLock _ hview _ hframe => rw [hview, hframe.version]; exact hver.localLock _
  | remoteLock _ _ _ hview _ hframe => rw [hview, hframe.version]; exact hver.remoteLock _
  | update _ _ hview _ hframe => rw [hview, hframe.version]; exact hver.update hπ _
  | updateStale _ _ hview _ hframe =>
    rw [hframe.version]
    exact hver.editsShared hview fun _ => rfl
  | release _ _ hview _ _ hframe => rw [hview, hframe.version]; exact hver.of_lock _
  | releaseVersion _ _ hview _ _ _ hversion =>
    obtain ⟨-, hbits, hmod⟩ := hok
    rw [hview, hversion, RowView.releaseVersion]
    split
    · rename_i hm
      -- the flag is set, so the owner's old version will not be looked at
      have hin : s.row.view.mod_in = true := by
        simpa [view, show s.row.lmeta.is_migrated = true from hm] using hmod hm
      exact ⟨fun _ => hbits, fun hfalse => absurd (hin.symm.trans hfalse) (by decide),
        fun _ => hm⟩
    · rename_i hm
      exact ⟨fun hm' => absurd hm' hm, fun _ => hbits, hver.mod_in⟩
  | @releaseVersionStale _ c p _ _ hc hstale _ _ _ =>
    exact absurd (hok.1 p (by rw [hc]; rfl)) hstale
  | moveIn hm _ hview _ hframe => rw [hview, hframe.version]; exact hver.moveIn hπ hm ..
  | moveOut hm hview _ hframe => rw [hview, hframe.version]; exact hver.moveOut hπ hm _
  | commitInsert _ hview _ _ _ hversion | commitRemoteInsert _ _ hview _ _ _ hversion =>
    rw [hview, hversion]
    exact hver.setValid (fun _ _ => rfl) _
  | commitRemoteInsertStale _ _ hview _ _ _ hversion =>
    rw [hversion]
    exact hver.editsShared hview fun _ => rfl

omit [DecidableEq C] in
theorem versionInv_start (smeta : Ptr → TwoPLPashaMetadataShared)
    (scc : Word → TwoPLPashaSharedDataSCC α) (value : α) (life : Life) :
    VersionInv (start smeta scc value life : RowSystem α C) :=
  have hzero : (tidFields 0).version = 0 := by decide
  ⟨wellFormed_start smeta scc value life, nofun, fun _ => hzero, nofun⟩

-- In every run that installs versions visibly, a lock call that succeeds returns the
-- version of the last committed release.
theorem lock_call_returns_version (cfg : Config C)
    (smeta : Ptr → TwoPLPashaMetadataShared) (scc : Word → TwoPLPashaSharedDataSCC α)
    (value : α) (life : Life) {s : RowSystem α C}
    (hreach : Reach (step cfg) InstallsVisibly (start smeta scc value life) s)
    {e : RowLabel α C} (hok : s.InstallsVisibly e) {res : LockResult α}
    (hcall : s.lockCall cfg e = some res) (hsuccess : res.success = true) :
    res.tid = s.version := by
  obtain ⟨hwf, hver⟩ := hreach.invariant (versionInv_start smeta scc value life)
    fun _ _ _ hinv hok h => versionInv_step hinv hok h
  rcases lockCall_cases hcall with ⟨c, kind, -, rfl⟩ | ⟨c, kind, inc, row, rfl, htarget, rfl⟩
  · obtain ⟨-, hlocks, htid, -, -⟩ :=
      localLock_refines hwf kind (s.reads e) cfg.owner
    have hvalid : s.row.view.ownerSees.valid = true :=
      ((Bool.and_eq_true _ _).mp (hlocks.symm.trans hsuccess)).1
    rw [htid, hvalid, if_pos rfl]
    exact hver.ownerSees
  · have hcur : s.row.IsCurrent row := by
      rcases hok row htarget with hcur | hinvalid
      · exact hcur
      · have hvalid := valid_of_remoteLock hsuccess
        exact absurd (hvalid.symm.trans hinvalid) (by decide)
    obtain ⟨-, hlocks, htid, -, -⟩ := remoteLock_refines hwf hcur kind
      (s.reads (.remoteLock c kind)) inc (cfg.host c)
    have hvalid : s.row.view.shared.valid = true :=
      ((Bool.and_eq_true _ _).mp (hlocks.symm.trans hsuccess)).1
    rw [htid, hvalid, if_pos rfl]
    exact hver.shared hcur.1

theorem owner_sees_remote_version :
    ∃ s : RowSystem Nat (Fin 2), Reach (step (twoHosts sccOn)) InstallsVisibly loaded s ∧
      s.version = 5 ∧ (s.row.write_lock 0).tid = 5 := by
  obtain ⟨s, hreach, hversion, hsuccess⟩ := exists_reach_of_run (step (twoHosts sccOn))
    InstallsVisibly loaded
    [.moveIn ⟨some 1, some (64, zeroed)⟩ false, .search 0 (.point true), .getMigratedRow 0,
      .remoteLock 0 .write, .update 0 9, .releaseVersion 0 5]
    (fun s => s.version = 5 ∧ (s.row.write_lock 0).success = true) (by decide)
  refine ⟨s, hreach, hversion, ?_⟩
  rw [← hversion]
  exact lock_call_returns_version (twoHosts sccOn) _ _ _ _ hreach
    (e := .localLock 1 .write false) trivial rfl hsuccess

-- A failing lock attempt of the owner between update and release clears the modified
-- flag and keeps the old version, which the owner's next lock then returns.
theorem failed_attempt_hides_version :
    ∃ s : RowSystem Nat (Fin 2), Reach (step (twoHosts sccOn)) (fun _ _ => True) loaded s ∧
      s.version = 5 ∧ (s.row.take_read_lock_and_read 0).success = true ∧
      (s.row.take_read_lock_and_read 0).tid = 0 :=
  exists_reach_of_run _ _ _
    [.moveIn ⟨some 1, some (64, zeroed)⟩ false, .search 0 (.point true), .getMigratedRow 0,
      .remoteLock 0 .write, .update 0 9, .localLock 1 .read true, .releaseVersion 0 5] _ (by decide)

end RowSystem

end Tigon.TwoPLPasha
