import Mathlib.Data.Fintype.Basic
import Tigon.TwoPLPasha.CachedSystem.Coherence
import Tigon.TwoPLPasha.RemoteInsert.Rows

namespace Tigon.TwoPLPasha

open Option RowState RowSystem RowView Tigon.Library

namespace CachedSystem

variable {α C : Type} {cfg : Config C} {s : CachedSystem α C}

theorem sees_localLock (hwf : s.base.row.WellFormed) (c : C) (kind : LockKind) (copy : Bool) :
    (s.base.row.view.migrated = false ∧ s.sees cfg (.localLock c kind copy) = s.base) ∨
    (s.base.row.view.migrated = true ∧ ∃ d, d.data = s.prepared cfg.owner ∧
      s.sees cfg (.localLock c kind copy) = s.base.withBlock s.block d) := by
  simp only [sees]
  split
  · rename_i hm
    have hcur : s.base.row.IsCurrent s.base.row.lmeta.migrated_row := ⟨hm, rfl⟩
    refine .inr ⟨hm, _, lineFor_view hwf hcur true cfg.owner, ?_⟩
    rw [get_scc_data_eq_block hwf hcur]
    rfl
  · rename_i hm
    exact .inl ⟨eq_false_of_ne_true hm, rfl⟩

theorem sees_remoteLock (cfg : Config C) (kind : LockKind) (hwf : s.base.row.WellFormed) {c : C}
    {p : Ptr} (hp : (s.base.access c).pointer = some p) (hcur : s.base.row.IsCurrent p) :
    ∃ d, d.data = s.prepared (cfg.host c) ∧
      s.sees cfg (.remoteLock c kind) = s.base.withBlock s.block d := by
  simp only [sees, hp]
  refine ⟨_, lineFor_view hwf hcur true (cfg.host c), ?_⟩
  rw [get_scc_data_eq_block hwf hcur]
  rfl

theorem access_sees (e : RowLabel α C) : (s.sees cfg e).access = s.base.access := by
  cases e with
  | localLock c kind copy | remoteLock c kind =>
    simp only [sees]
    split <;> rfl
  | _ => rfl

theorem Coherent.no_live (hinv : s.Coherent cfg) {kind : LockKind}
    (hfree : s.base.row.view.lock.free 31 kind = true) (c : C) (h : Host) (v : α) :
    ¬ s.Live cfg c h v := by
  rintro ⟨via, hc, -⟩
  exact hinv.lock.accounts.not_writer_of_free hfree c (by rw [holder, hc]; rfl)

theorem Coherent.lock_and_read (hinv : s.Coherent cfg) {e : RowLabel α C}
    (hindexed : s.UsesIndexedPointer (.row e)) (hstays : s.StaysOnHost cfg (.row e))
    {res : LockResult α} (hcall : s.lockCall cfg e = some res) (hread : s.base.reads e = true)
    (hsuccess : res.success = true) :
    res.dest = some s.base.payload ∧ ∀ c h v, ¬ s.Live cfg c h v := by
  have hwf := hinv.lock.wellFormed
  have hreads : (s.sees cfg e).reads e = true := by
    rw [← hread]
    simp only [reads, access_sees]
  rcases lockCall_cases hcall with ⟨c, kind, he, rfl⟩ | ⟨c, kind, inc, row, rfl, htarget, rfl⟩
  · rw [hreads] at he hsuccess ⊢
    subst he
    have hun := hstays cfg.owner rfl
    rcases sees_localLock hwf c kind true with ⟨hm, hsees⟩ | ⟨hm, d, hd, hsees⟩
    · rw [hsees] at hsuccess ⊢
      obtain ⟨-, hlocks, -, hdest, -⟩ := localLock_refines hwf kind true cfg.owner
      rw [hsuccess] at hlocks
      have hlive := hinv.no_live (free_of_localLocks hlocks.symm)
      refine ⟨?_, hlive⟩
      have hin := mod_in_of_unmigrated hm
      rw [hdest, ← hlocks, ownerSees, hin,
        ← (hinv.owner hin).settled (hlive · _) (hlive · _) hun]
      rfl
    · rw [hsees] at hsuccess ⊢
      have hlockb := hinv.lock.withBlock s.block d
      obtain ⟨-, hlocks, -, hdest, -⟩ :=
        localLock_refines hlockb.wellFormed kind true cfg.owner
      rw [view_withBlock] at hlocks hdest
      rw [hsuccess] at hlocks
      have hfree := free_of_localLocks hlocks.symm
      have hlive := hinv.no_live hfree
      refine ⟨?_, hlive⟩
      rw [hdest, ← hlocks, ownerSees]
      cases hin : s.base.row.view.mod_in with
      | true =>
        have hpayload := (hinv.prepared hm cfg.owner).settled (hlive · _) (hlive · _) hun
        rw [← hpayload, ← hd]
        rfl
      | false =>
        rw [← (hinv.owner hin).settled (hlive · _) (hlive · _) hun]
        rfl
  · rw [access_sees] at htarget
    have hp := pointer_of_target htarget
    have hcur := hwf.isCurrent_of_cxl (hindexed c rfl row hp)
    obtain ⟨d, hd, hsees⟩ := sees_remoteLock cfg kind hwf hp hcur
    rw [hreads] at hsuccess ⊢
    rw [hsees] at hsuccess ⊢
    have hlockb := hinv.lock.withBlock s.block d
    obtain ⟨-, hlocks, -, hdest, -⟩ :=
      remoteLock_refines hlockb.wellFormed hcur kind true inc (cfg.host c)
    rw [view_withBlock] at hlocks hdest
    rw [hsuccess] at hlocks
    have hfree := free_of_remoteLocks hlocks.symm
    have hlive := hinv.no_live hfree
    refine ⟨?_, hlive⟩
    rw [hdest, ← hlocks, ← (hinv.prepared hcur.1 (cfg.host c)).settled (hlive · _) (hlive · _)
      (hstays _ rfl), ← hd]
    rfl

section Check

variable [DecidableEq C]

omit [DecidableEq C] in
theorem isSome_latched {h : Host} {p : Ptr} {prepare publish : Bool}
    {f : RowSystem α C → Option (RowSystem α C)}
    (hf : ∀ d, (f (s.base.withBlock (s.base.row.smeta p).get_scc_data d)).isSome = true) :
    (s.latched h p prepare publish f).isSome = true := by
  rw [latched, isSome_map]
  exact hf _

theorem Coherent.isSome_releaseVersion [DecidableEq α] (hinv : s.Coherent cfg) {c : C}
    {via : Option Ptr} {written : Option α} {new_value : Word}
    (hc : s.base.access c = .holding .write via written) (hvia : s.base.Current via) :
    (s.step cfg (.row (.releaseVersion c new_value))).isSome = true := by
  -- its host has its bit, whatever the copy of the block is
  have hrelease : ∀ b : RowSystem α C, b.access = s.base.access → b.row.lmeta = s.base.row.lmeta →
      b.row.smeta = s.base.row.smeta → (b.releaseVersion cfg c new_value).isSome = true := by
    intro b hacc hlmeta hsmeta
    have hmb : b.row.lmeta.is_migrated = s.base.row.lmeta.is_migrated := by rw [hlmeta]
    rw [RowSystem.releaseVersion, hacc, hc]
    rw [isSome_map]
    have hbit : s.base.row.view.migrated = true →
        b.row.current.scc_bit (hostOf cfg c via) = true := by
      intro hm
      have hbit := hinv.bits hm c via written hc hvia
      rw [bit, current] at hbit
      rw [current, hlmeta, hsmeta]
      exact hbit
    cases via with
    | none =>
      simp only [write_lock_release_version]
      split
      · rfl
      · rename_i hm
        rw [Bool.not_eq_false, hmb] at hm
        exact remote_write_lock_release_version_isSome rfl (hbit hm)
    | some p =>
      have hcur := hvia p rfl
      refine remote_write_lock_release_version_isSome ?_ (hbit hcur.1)
      rw [hlmeta]
      exact hcur.2
  simp only [step, through, hc, Access.pointer]
  cases via with
  | none =>
    simp only [owned]
    split
    · exact isSome_latched fun d => hrelease _ rfl rfl rfl
    · rw [isSome_map]
      exact hrelease _ rfl rfl rfl
  | some p => exact isSome_latched fun d => hrelease _ rfl rfl rfl

theorem isSome_moveIn [DecidableEq α] {alloc : Allocation α} (hadmits : s.base.admits alloc)
    (inc : Bool) : (s.step cfg (.row (.moveIn alloc inc))).isSome = true := by
  have hmove : ∀ b : RowSystem α C, b.allocated = s.base.allocated →
      (b.moveIn cfg alloc inc).isSome = true := by
    intro b hb
    have hadmits : b.admits alloc := by
      rw [admits, hb]
      exact hadmits
    obtain ⟨r, res, hr⟩ : ∃ r res,
        RowState.moveIn cfg.ctx cfg.owner alloc inc id b.row = some (r, res) :=
      RowState.exists_moveIn (fun _ => rfl) b.row
    rw [RowSystem.moveIn, if_pos hadmits, isSome_map,
      RowState.move_from_hashmap_to_shared_region, hr]
    rfl
  simp only [step, moveIn, owned]
  split
  · exact isSome_latched fun d => hmove _ rfl
  · split
    · rw [isSome_map]
      exact hmove _ rfl
    · rw [isSome_map]
      exact hmove _ rfl

end Check

section Run

variable [DecidableEq C] [DecidableEq α] {e : CachedLabel α C}

theorem Coherent.next (hscc : cfg.ctx.enable_scc = true) {t : CachedSystem α C}
    (hinv : s.Coherent cfg) (hindexed : s.UsesIndexedPointer e) (hwaits : s.OwnerWaits e)
    (hstays : s.StaysOnHost cfg e) (h : s.step cfg e = some t) : t.Coherent cfg :=
  coherent_of_step hinv hwaits hstays (outcome_of_step hscc hinv.lock hinv.known hindexed h)

-- Only point accesses, each through a pointer that is in the CXL index at that moment.
def PointAccess (s : CachedSystem α C) : CachedLabel α C → Prop
  | .scanUpdate .. | .releaseScan _ => False
  | .row e => s.UsesIndexedPointer (.row e)
  | .evict h o => s.UsesIndexedPointer (.evict h o)

section

omit [DecidableEq C] [DecidableEq α]

instance (s : CachedSystem α C) (e : CachedLabel α C) : Decidable (s.PointAccess e) := by
  rcases e with ⟨⟩ <;> unfold PointAccess <;> infer_instance

theorem PointAccess.indexed (h : s.PointAccess e) : s.UsesIndexedPointer e := by
  cases e with
  | row e | evict host o => exact h
  | scanUpdate c value | releaseScan c => exact h.elim

end

omit [DecidableEq α] in
theorem unpublished_of_step {t : CachedSystem α C} (hpoint : s.PointAccess e)
    (hnone : s.unpublished = none) (hstep : CachedStep cfg s e t) : t.unpublished = none := by
  cases hstep with
  | keep _ _ _ hun | look _ _ _ _ _ hun | localLock _ _ _ _ _ hun
  | ownerLock _ _ _ _ _ _ _ hun | remoteLock _ _ _ _ _ _ _ _ _ hun
  | update _ _ _ _ _ _ _ _ hun | updateLocal _ _ _ _ _ _ _ hun
  | release _ _ _ _ hun => exact hun.trans hnone
  | releaseVersion _ _ _ _ _ _ _ _ _ _ _ hun => exact hun
  | releaseVersionLocal _ _ _ _ _ hun => exact hun.trans hnone
  | releaseScan _ _ _ _ _ _ => exact hpoint.elim
  | moveIn _ _ _ _ _ _ _ _ _ _ _ hun => exact hun
  | moveOut _ _ _ _ _ _ _ hun => exact hun.trans hnone

-- Point accesses by any number of hosts, over any number of moves: as long as the owner
-- leaves a row alone that another host has updated and not released, every read under a lock
-- returns the payload that was published last, and finish_write never fails its CHECK.
theorem point_accesses_read_published_payload (cfg : Config C) (hscc : cfg.ctx.enable_scc = true)
    (smeta : Ptr → TwoPLPashaMetadataShared) (scc : Word → TwoPLPashaSharedDataSCC α)
    (copy : Word → Host → Option (TwoPLPashaSharedDataSCC α)) (value : α) {s : CachedSystem α C}
    (hreach : Reach (step cfg) (fun s e => s.PointAccess e ∧ s.OwnerWaits e)
      (start smeta scc copy value) s) :
    (∀ e res, s.PointAccess (.row e) → s.lockCall cfg e = some res → s.base.reads e = true →
      res.success = true → res.dest = some s.base.payload ∧
        (s.base.row.lmeta.is_migrated = true → s.memory = s.base.payload)) ∧
    (∀ c via written new_value, s.base.access c = .holding .write via written →
      s.PointAccess (.row (.releaseVersion c new_value)) →
      (s.step cfg (.row (.releaseVersion c new_value))).isSome = true) ∧
    (∀ alloc inc, s.base.admits alloc → (s.step cfg (.row (.moveIn alloc inc))).isSome = true) := by
  obtain ⟨hinv, hnone⟩ : s.Coherent cfg ∧ s.unpublished = none := by
    refine hreach.invariant (P := fun s => s.Coherent cfg ∧ s.unpublished = none)
      ⟨coherent_start cfg smeta scc copy value, rfl⟩ ?_
    rintro s e t ⟨hinv, hnone⟩ ⟨hpoint, hwaits⟩ h
    refine ⟨hinv.next hscc hpoint.indexed hwaits ?_ h, ?_⟩
    · intro h _ g hg
      rw [hnone] at hg
      cases hg
    · exact unpublished_of_step hpoint hnone
        (outcome_of_step hscc hinv.lock hinv.known hpoint.indexed h).step
  refine ⟨fun e res hpoint hcall hread hsuccess => ?_, fun c via written new_value hc hpoint => ?_,
    fun alloc inc hadmits => isSome_moveIn hadmits inc⟩
  · obtain ⟨hdest, hlive⟩ := hinv.lock_and_read hpoint
      (fun h _ g hg => by rw [hnone] at hg; cases hg) hcall hread hsuccess
    exact ⟨hdest, fun hm => hinv.memory hm (hlive · _) hnone⟩
  · refine hinv.isSome_releaseVersion hc fun p hp => ?_
    exact hinv.lock.wellFormed.isCurrent_of_cxl (hpoint c rfl p (by rw [hc]; exact hp))

open RowSystem (twoHosts sccOn zeroed)

def cold : CachedSystem Nat (Fin 2) :=
  start (fun _ => ⟨0⟩) (fun _ => zeroed) (fun _ _ => none) 7

def answer (s : CachedSystem Nat (Fin 2)) (e : RowLabel Nat (Fin 2)) :
    Option (Bool × Option Nat) :=
  (s.lockCall (twoHosts sccOn) e).map fun res => (res.success, res.dest)

theorem owner_reads_published_payload :
    ∃ s : CachedSystem Nat (Fin 2),
      Reach (step (twoHosts sccOn)) (fun s e => s.PointAccess e ∧ s.OwnerWaits e) cold s ∧
      ∃ res, s.lockCall (twoHosts sccOn) (.localLock 1 .read true) = some res ∧
        res.dest = some 9 ∧ s.memory = 9 := by
  obtain ⟨s, hreach, hpayload, hm, hsuccess⟩ := exists_reach_of_run (step (twoHosts sccOn))
    (fun s e => s.PointAccess e ∧ s.OwnerWaits e) cold
    [.row (.moveIn ⟨some 1, some (64, zeroed)⟩ false), .row (.search 0 (.point true)),
      .row (.getMigratedRow 0), .row (.remoteLock 0 .write), .row (.update 0 9),
      .row (.releaseVersion 0 5)]
    (fun s => s.base.payload = 9 ∧ s.base.row.lmeta.is_migrated = true ∧
      (s.lockCall (twoHosts sccOn) (.localLock 1 .read true)).any (·.success) = true)
    (by decide +kernel)
  obtain ⟨res, hcall, hsuccess⟩ := (any_eq_true _ _).mp hsuccess
  have hread := (point_accesses_read_published_payload (twoHosts sccOn) rfl _ _ _ _ hreach).1
    (.localLock 1 .read true) res nofun hcall rfl hsuccess
  rw [hpayload] at hread
  exact ⟨s, hreach, res, hcall, hread.1, hread.2 hm⟩

-- The owner looks at the row before the release, fails, and has yet taken the old payload
-- over and the flag away. What it reads after the release is its own copy.
theorem owner_misses_published_payload :
    ∃ s : CachedSystem Nat (Fin 2), Reach (step (twoHosts sccOn)) PointAccess cold s ∧
      s.base.payload = 9 ∧ s.memory = 9 ∧
      s.answer (.localLock 1 .read true) = some (true, some 7) :=
  exists_reach_of_run _ _ _
    [.row (.moveIn ⟨some 1, some (64, zeroed)⟩ false), .row (.search 0 (.point true)),
      .row (.getMigratedRow 0), .row (.remoteLock 0 .write), .row (.update 0 9),
      .row (.localLock 1 .read true), .row (.releaseVersion 0 5)] _ (by decide +kernel)

end Run

end CachedSystem

end Tigon.TwoPLPasha
