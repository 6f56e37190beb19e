import Tigon.TwoPLPasha.CommitSystem
import Tigon.TwoPLPasha.Metadata.Lemmas
import Tigon.TwoPLPasha.Transaction.Calls

namespace Tigon.TwoPLPasha

open Function List Option Transaction Call Tigon.Library

section Words

variable {v : Word}

theorem lt_of_shift_lt {g : Word} (hg : g.toNat < 2 ^ 32) (h : v >>> 32 < g) : v < g <<< 32 := by
  rw [BitVec.lt_def] at h ⊢
  rw [BitVec.toNat_ushiftRight, Nat.shiftRight_eq_div_pow] at h
  have hshift : (g <<< 32).toNat = g.toNat * 2 ^ 32 := by
    rw [BitVec.toNat_shiftLeft, Nat.shiftLeft_eq, Nat.mod_eq_of_lt]
    calc g.toNat * 2 ^ 32 < 2 ^ 32 * 2 ^ 32 := Nat.mul_lt_mul_of_pos_right hg (by norm_num)
      _ = 2 ^ 64 := by norm_num
  rw [hshift]
  exact (Nat.div_lt_iff_lt_mul (by norm_num)).mp h

theorem lt_add_one {w : Word} (hle : v ≤ w) (hmax : w.toNat + 1 < 2 ^ 64) : v < w + 1 := by
  rw [BitVec.le_def] at hle
  rw [BitVec.lt_def, BitVec.toNat_add]
  have hone : (1 : Word).toNat = 1 := by decide
  rw [hone, Nat.mod_eq_of_lt hmax]
  omega

theorem lt_generate_epoch_version {g : Word} (hv : v.toNat + 1 < 2 ^ 64) (hg : g.toNat < 2 ^ 32) :
    v < generate_epoch_version v g := by
  rw [generate_epoch_version]
  split
  · rename_i h
    exact lt_of_shift_lt hg h
  · exact lt_add_one (BitVec.le_refl v) hv

end Words

namespace RowLock

variable {W : Type} {kind : LockKind} {w : W} {l l' : RowLock W}

theorem not_writer_of_take (h : l.take kind w = some l') (w' : W) : l ≠ .writer w' := by
  rintro rfl
  cases h

theorem writer_of_take (h : l.take .write w = some l') : l' = .writer w := by
  cases l with
  | readers n =>
    simp only [take] at h
    split at h
    · exact (some.inj h).symm
    · cases h
  | writer w' => cases h

end RowLock

namespace CommitSystem

variable {W κ ρ : Type}

def held (s : CommitSystem W κ ρ) (w : W) : List ρ :=
  (s.worker w).txn.written ++ (s.worker w).pending.filterMap unlocks

-- A commit finds the epoch within 32 bits, and the next rows of its inserts at versions
-- its own tid will exceed.
def CommitsAbove (s : CommitSystem W κ ρ) : CommitLabel W κ ρ → Prop
  | .commit w =>
    let x := s.worker w
    s.epoch.toNat < 2 ^ 32 ∧
    ∀ k ∈ x.txn.insertSet, k.is_next_row_locked = true → ∀ ptr ∈ k.next_row_entity,
      s.version ptr.row ≤ latest_tid x.max_tid x.txn.readSet ∧
        (latest_tid x.max_tid x.txn.readSet).toNat + 1 < 2 ^ 64
  | _ => True

instance (s : CommitSystem W κ ρ) (e : CommitLabel W κ ρ) : Decidable (s.CommitsAbove e) := by
  cases e <;> unfold CommitsAbove <;> infer_instance

structure VersionInv (s : CommitSystem W κ ρ) : Prop where
  small : ∀ row, (s.version row).toNat + 1 < 2 ^ 64
  owned : ∀ w, ∀ row ∈ s.held w, s.lock row = .writer w
  nodup : ∀ w, (s.held w).Nodup
  tids : ∀ w, ∀ k ∈ (s.worker w).txn.readSet, k.write_lock_bit = true →
    ∀ ptr ∈ k.cached_row, k.tid = s.version ptr.row
  above : ∀ w, ∀ call ∈ (s.worker w).pending, ∀ row value, call.installs = some (row, value) →
    call.unlocks = some row ∧ s.version row < value

variable {s t : CommitSystem W κ ρ} {w : W} {row : ρ}

theorem not_mem_held_of_owned (hinv : VersionInv s) {w' : W} (hne : w' ≠ w)
    (hrow : row ∈ s.held w) :
    row ∉ s.held w' := by
  intro hrow'
  have heq := (hinv.owned w' row hrow').symm.trans (hinv.owned w row hrow)
  exact hne (RowLock.writer.inj heq)

theorem mem_held_of_read (w : W) {k : ReadKey κ ρ} (hk : k ∈ (s.worker w).txn.readSet)
    (hbit : k.write_lock_bit = true) {ptr : RowPtr ρ} (hptr : ptr ∈ k.cached_row) :
    ptr.row ∈ s.held w := by
  have hcall : lock_release (!k.has_master_partition) .write k.cached_row none ∈ k.abort := by
    simp [ReadKey.abort, ReadKey.releases, hbit]
  have hmem : ptr.row ∈ k.abort.filterMap unlocks :=
    mem_filterMap.mpr ⟨_, hcall, by rw [mem_def.mp hptr]; rfl⟩
  refine mem_append_left _ (mem_append_left _ (mem_append_left _ ?_))
  exact mem_flatMap.mpr ⟨k, hk, hmem⟩

variable {call : Call κ ρ}

theorem mem_held_of_pending (w : W) (hcall : call ∈ (s.worker w).pending)
    (hrow : call.unlocks = some row) : row ∈ s.held w :=
  mem_append_right _ (mem_filterMap.mpr ⟨call, hcall, hrow⟩)

theorem row_rowPtr (remote : Bool) (row : ρ) : (rowPtr remote row).row = row := by
  cases remote <;> rfl

variable [DecidableEq W]

section

variable (hinv : VersionInv s)

include hinv

theorem versionInv_txn {txn : Transaction κ ρ} (row : Option ρ)
    (hworker : t.worker = update s.worker w { s.worker w with txn := txn })
    (hversion : t.version = s.version)
    (hlock : ∀ r w', s.lock r = .writer w' → t.lock r = .writer w')
    (hwritten : txn.written.Perm (row.toList ++ (s.worker w).txn.written))
    (hrow : ∀ r ∈ row, t.lock r = .writer w ∧ ∀ w', s.lock r ≠ .writer w')
    (hreads : ∀ k ∈ txn.readSet, k ∈ (s.worker w).txn.readSet ∨
      (k.write_lock_bit = true → ∀ ptr ∈ k.cached_row, k.tid = s.version ptr.row)) :
    VersionInv t := by
  obtain ⟨hself, hother⟩ := Function.eq_update_iff.mp hworker
  have hheld : (t.held w).Perm (row.toList ++ s.held w) := by
    rw [held, hself, held, ← append_assoc]
    exact hwritten.append_right _
  have hheld' : ∀ w', w' ≠ w → t.held w' = s.held w' := by
    intro w' hne
    rw [held, hother w' hne, held]
  refine ⟨by rw [hversion]; exact hinv.small, ?_, ?_, ?_, ?_⟩
  · intro w' r hr
    by_cases hw : w' = w
    · subst hw
      rcases mem_append.mp (hheld.mem_iff.mp hr) with hr | hr
      · exact (hrow r (mem_toList.mp hr)).1
      · exact hlock r w' (hinv.owned w' r hr)
    · rw [hheld' w' hw] at hr
      exact hlock r w' (hinv.owned w' r hr)
  · intro w'
    by_cases hw : w' = w
    · subst hw
      rw [hheld.nodup_iff]
      refine List.Nodup.append ?_ (hinv.nodup w') ?_
      · cases row with
        | none => exact nodup_nil
        | some r => exact nodup_singleton r
      · intro r hr hr'
        exact (hrow r (mem_toList.mp hr)).2 w' (hinv.owned w' r hr')
    · rw [hheld' w' hw]
      exact hinv.nodup w'
  · intro w' k hk hbit ptr hptr
    rw [hversion]
    by_cases hw : w' = w
    · subst hw
      rw [hself] at hk
      rcases hreads k hk with hold | hnew
      · exact hinv.tids w' k hold hbit ptr hptr
      · exact hnew hbit ptr hptr
    · rw [hother w' hw] at hk
      exact hinv.tids w' k hk hbit ptr hptr
  · intro w' call hcall
    rw [hversion]
    have hpending : (t.worker w').pending = (s.worker w').pending := by
      by_cases hw : w' = w
      · subst hw
        rw [hself]
      · rw [hother w' hw]
    rw [hpending] at hcall
    exact hinv.above w' call hcall

theorem versionInv_finish {tid : Word} {calls : List (Call κ ρ)}
    (ht : t = s.setWorker w ⟨tid, .empty, calls⟩)
    (hsub : (calls.filterMap unlocks).Subperm (s.worker w).txn.written)
    (habove : ∀ call ∈ calls, ∀ row value, call.installs = some (row, value) →
      call.unlocks = some row ∧ s.version row < value) :
    VersionInv t := by
  subst ht
  have hself : (s.setWorker w ⟨tid, .empty, calls⟩).worker w = ⟨tid, .empty, calls⟩ :=
    update_self ..
  have hother : ∀ w', w' ≠ w → (s.setWorker w ⟨tid, .empty, calls⟩).worker w' = s.worker w' :=
    fun w' hne => update_of_ne hne ..
  have hheld : (s.setWorker w ⟨tid, .empty, calls⟩).held w = calls.filterMap unlocks := by
    rw [held, hself]
    rfl
  have hheld' : ∀ w', w' ≠ w → (s.setWorker w ⟨tid, .empty, calls⟩).held w' = s.held w' := by
    intro w' hne
    rw [held, hother w' hne, held]
  have hwritten : (s.worker w).txn.written.Sublist (s.held w) := sublist_append_left ..
  refine ⟨hinv.small, ?_, ?_, ?_, ?_⟩
  · intro w' r hr
    by_cases hw : w' = w
    · subst hw
      rw [hheld] at hr
      exact hinv.owned w' r (hwritten.subset (hsub.subset hr))
    · rw [hheld' w' hw] at hr
      exact hinv.owned w' r hr
  · intro w'
    by_cases hw : w' = w
    · subst hw
      rw [hheld]
      obtain ⟨rows, hperm, hrows⟩ := hsub
      exact hperm.nodup_iff.mp (hrows.nodup (hwritten.nodup (hinv.nodup w')))
    · rw [hheld' w' hw]
      exact hinv.nodup w'
  · intro w' k hk
    by_cases hw : w' = w
    · subst hw
      rw [hself] at hk
      cases hk
    · rw [hother w' hw] at hk
      exact hinv.tids w' k hk
  · intro w' call hcall
    by_cases hw : w' = w
    · subst hw
      rw [hself] at hcall
      exact habove call hcall
    · rw [hother w' hw] at hcall
      exact hinv.above w' call hcall

-- A call is made: nobody holds the row it unlocks any longer, and nobody holds another one
-- than before.
theorem held_of_call {rest : List (Call κ ρ)} (hpending : (s.worker w).pending = call :: rest)
    (hworker : t.worker = update s.worker w { s.worker w with pending := rest }) {w' : W}
    (hrow : row ∈ t.held w') : row ∈ s.held w' ∧ call.unlocks ≠ some row := by
  have hheld : s.held w = (s.worker w).txn.written ++
      (call.unlocks.toList ++ rest.filterMap unlocks) := by
    rw [held, hpending]
    cases hcall : call.unlocks <;> simp [hcall]
  by_cases hw : w' = w
  · subst hw
    have hself : t.worker w' = { s.worker w' with pending := rest } := by
      rw [hworker]
      exact update_self ..
    have hsub : (t.held w').Sublist (s.held w') := by
      rw [hheld, held, hself]
      exact (List.Sublist.refl _).append (sublist_append_right ..)
    refine ⟨hsub.subset hrow, fun hcall => ?_⟩
    have hnodup := hinv.nodup w'
    rw [hheld, hcall, nodup_append] at hnodup
    rw [held, hself] at hrow
    rcases mem_append.mp hrow with hrow | hrow
    · exact hnodup.2.2 row hrow row (by simp) rfl
    · have htail := hnodup.2.1
      rw [toList_some, singleton_append, nodup_cons] at htail
      exact htail.1 hrow
  · have hother : t.worker w' = s.worker w' := by
      rw [hworker]
      exact update_of_ne hw ..
    rw [held, hother] at hrow
    refine ⟨hrow, fun hcall => ?_⟩
    have hin : row ∈ s.held w := by
      rw [hheld, hcall]
      simp
    exact not_mem_held_of_owned hinv hw hin hrow

theorem versionInv_call {rest : List (Call κ ρ)} (hpending : (s.worker w).pending = call :: rest)
    (hworker : t.worker = update s.worker w { s.worker w with pending := rest })
    (hversion : ∀ row, call.unlocks ≠ some row → t.version row = s.version row)
    (hsmall : ∀ row, (t.version row).toNat + 1 < 2 ^ 64)
    (hlock : ∀ row w', call.unlocks ≠ some row → s.lock row = .writer w' →
      t.lock row = .writer w') :
    VersionInv t := by
  obtain ⟨hself, hother⟩ := Function.eq_update_iff.mp hworker
  have hgone : ∀ w', ∀ row ∈ t.held w', row ∈ s.held w' ∧ call.unlocks ≠ some row :=
    fun w' row hrow => held_of_call hinv hpending hworker hrow
  refine ⟨hsmall, ?_, ?_, ?_, ?_⟩
  · intro w' row hrow
    obtain ⟨hold, hne⟩ := hgone w' row hrow
    exact hlock row w' hne (hinv.owned w' row hold)
  · intro w'
    by_cases hw : w' = w
    · subst hw
      have hnodup := hinv.nodup w'
      rw [held, hpending] at hnodup
      rw [held, hself]
      exact hnodup.sublist
        ((List.Sublist.refl _).append ((sublist_cons_self call rest).filterMap _))
    · rw [held, hother w' hw]
      exact hinv.nodup w'
  · intro w' k hk hbit ptr hptr
    rw [hversion _ (hgone w' _ (mem_held_of_read w' hk hbit hptr)).2]
    have hread : k ∈ (s.worker w').txn.readSet := by
      by_cases hw : w' = w
      · subst hw
        rw [hself] at hk
        exact hk
      · rw [hother w' hw] at hk
        exact hk
    exact hinv.tids w' k hread hbit ptr hptr
  · intro w' c hc row value hi
    have hold : c ∈ (s.worker w').pending := by
      by_cases hw : w' = w
      · subst hw
        rw [hself] at hc
        rw [hpending]
        exact mem_cons_of_mem _ hc
      · rw [hother w' hw] at hc
        exact hc
    obtain ⟨hunlocks, hlt⟩ := hinv.above w' c hold row value hi
    rw [hversion _ (hgone w' row (mem_held_of_pending w' hc hunlocks)).2]
    exact ⟨hunlocks, hlt⟩

theorem versionInv_addInsert (key : κ) (has_master require : Bool) :
    VersionInv (s.addInsert w key has_master require none) := by
  refine versionInv_txn hinv none rfl rfl (fun _ _ h => h) ?_ nofun (fun k hk => .inl hk)
  refine (written_insert _ _).trans ?_
  cases require <;> exact List.Perm.refl _

theorem versionInv_scan (remote : Bool) (type : ScanType) : VersionInv (s.scan w remote type) := by
  refine versionInv_txn hinv none rfl rfl (fun _ _ h => h) ?_ nofun (fun k hk => .inl hk)
  exact written_scan _ _ _

theorem versionInv_commit (hok : s.CommitsAbove (.commit w)) : VersionInv (s.commit w) := by
  obtain ⟨hepoch, hnext⟩ := hok
  refine versionInv_finish hinv rfl ?_ ?_
  · rw [filterMap_append, unlocks_release_migrated_rows, append_nil]
    exact (unlocks_release_lock ..).subperm
  · intro call hcall row value hi
    rcases mem_append.mp hcall with hcall | hcall
    · simp only [release_lock, mem_append, mem_flatMap] at hcall
      rcases hcall with (⟨k, hk, hcall⟩ | ⟨k, hk, hcall⟩) | ⟨k, hk, hcall⟩
      · -- a point update: its tid is the row's version
        obtain ⟨hunlocks, hvalue, hbit, ptr, hptr, rfl⟩ := ReadKey.installs_releases hcall hi
        refine ⟨hunlocks, ?_⟩
        rw [← some.inj hvalue, hinv.tids w k hk hbit ptr hptr]
        exact lt_generate_epoch_version (hinv.small ptr.row) hepoch
      · -- the next row of an insert
        obtain ⟨hunlocks, rfl, hlocked, ptr, hptr, rfl⟩ :=
          InsertKey.installs_release_lock hcall hi
        obtain ⟨hle, hmax⟩ := hnext k hk hlocked ptr hptr
        exact ⟨hunlocks, lt_add_one hle hmax⟩
      · rw [ScanKey.installs_release_lock hcall] at hi
        cases hi
    · rw [(quiet_release_migrated_rows hcall).2] at hi
      cases hi

theorem versionInv_abort : VersionInv (s.abort w) := by
  refine versionInv_finish hinv rfl (unlocks_abort _) ?_
  intro call hcall row value hi
  rw [installs_abort hcall] at hi
  cases hi

end

variable [DecidableEq ρ]

omit [DecidableEq W] in
theorem writer_setLock {kind : LockKind} {lock : RowLock W}
    (htake : (s.lock row).take kind w = some lock) (r : ρ) (w' : W) (h : s.lock r = .writer w') :
    (s.setLock row lock).lock r = .writer w' := by
  by_cases hr : r = row
  · subst hr
    exact absurd h (RowLock.not_writer_of_take htake w')
  · rw [setLock]
    simp only [update_of_ne hr]
    exact h

omit [DecidableEq W] in
theorem writer_of_setLock {lock : RowLock W} (htake : (s.lock row).take .write w = some lock) :
    (s.setLock row lock).lock row = .writer w ∧ ∀ w', s.lock row ≠ .writer w' := by
  refine ⟨?_, RowLock.not_writer_of_take htake⟩
  rw [setLock]
  simp only [update_self]
  exact RowLock.writer_of_take htake

theorem versionInv_point (hinv : VersionInv s) (key : κ) (row : ρ) (remote : Bool)
    (kind : LockKind) : VersionInv (s.point w key row remote kind) := by
  rw [point]
  split
  · rename_i lock htake
    refine versionInv_txn hinv (if kind = .write then some row else none) rfl rfl
      (writer_setLock htake) ?_ ?_ ?_
    · refine (written_read _ _).trans ?_
      cases kind <;> cases remote <;> exact List.Perm.refl _
    · intro r hr
      cases kind with
      | read => cases hr
      | write =>
        cases hr
        exact writer_of_setLock htake
    · intro k hk
      rcases mem_append.mp hk with hk | hk
      · exact .inl hk
      · right
        intro _ ptr hptr
        rw [mem_singleton.mp hk] at hptr ⊢
        cases remote <;> cases hptr <;> rfl
  · exact hinv

theorem versionInv_insert (hinv : VersionInv s) (key : κ) (next : ρ) (require : Bool) :
    VersionInv (s.insert w key next require) := by
  rw [insert]
  split
  · split
    · rename_i lock htake
      refine versionInv_txn hinv (some next) rfl rfl (writer_setLock htake) ?_ ?_
        (fun k hk => .inl hk)
      · refine (written_insert _ _).trans ?_
        exact List.Perm.refl _
      · intro r hr
        cases hr
        exact writer_of_setLock htake
    · exact hinv
  · exact versionInv_addInsert hinv key true false

theorem versionInv_scanRow (hinv : VersionInv s) {locking_next_tuple : Bool}
    (h : s.scanRow w row locking_next_tuple = some t) : VersionInv t := by
  rw [scanRow] at h
  split at h
  · rename_i k rest hset
    split at h
    · cases h
    · rename_i hnext
      split at h
      · rename_i lock htake
        cases h
        refine versionInv_txn hinv (if k.type.kind = .write then some row else none) rfl rfl
          (writer_setLock htake) ?_ ?_ (fun k hk => .inl hk)
        · refine (written_scan _ _ _).trans ?_
          have hold : (s.worker w).txn.written.Perm
              ((k.abort : List (Call κ ρ)).filterMap unlocks ++
                ({ (s.worker w).txn with scanSet := rest } : Transaction κ ρ).written) := by
            have hscan := written_scan (s.worker w).txn k rest
            rw [← hset] at hscan
            exact hscan
          refine (List.Perm.append_right _ ?_).trans
            ((List.Perm.of_eq (append_assoc ..)).trans (hold.symm.append_left _))
          have hrow := row_rowPtr (!k.has_master_partition) row
          cases locking_next_tuple with
          | true =>
            have hunlocks := ScanKey.unlocks_next κ (rowPtr (!k.has_master_partition) row)
              (eq_false_of_ne_true hnext)
            rw [hrow] at hunlocks
            exact List.Perm.of_eq hunlocks
          | false =>
            have hunlocks := k.unlocks_result κ (rowPtr (!k.has_master_partition) row)
            rw [hrow] at hunlocks
            exact hunlocks
        · intro r hr
          split at hr
          · rename_i hkind
            cases hr
            rw [hkind] at htake
            exact writer_of_setLock htake
          · cases hr
      · cases h
        exact hinv
  · cases h

theorem versionInv_release (hinv : VersionInv s) (h : s.release w = some t) :
    VersionInv t := by
  rw [release] at h
  split at h
  · rename_i call rest hpending
    rw [apply.eq_def] at h
    split at h
    · rename_i remote kind ptr new_value
      split at h
      · -- only the lock of the row changes, and its version if there is a new one
        have hlock : ∀ row w', (lock_release remote kind (some ptr) new_value :
            Call κ ρ).unlocks ≠ some row → s.lock row = .writer w' →
            update s.lock ptr.row ((s.lock ptr.row).give kind) row = .writer w' := by
          intro row w' hne hrow
          by_cases hptr : row = ptr.row
          · subst hptr
            cases kind with
            | write => exact absurd rfl hne
            | read =>
              simp only [update_self, hrow]
              rfl
          · simp only [update_of_ne hptr]
            exact hrow
        cases new_value with
        | none =>
          cases h
          exact versionInv_call hinv hpending rfl (fun _ _ => rfl) hinv.small hlock
        | some value =>
          cases h
          have hinstalls := hinv.above w _ (by rw [hpending]; exact mem_cons_self)
            ptr.row value rfl
          refine versionInv_call hinv hpending rfl ?_ ?_ hlock
          · intro row hne
            have hptr : row ≠ ptr.row := by
              rintro rfl
              exact hne hinstalls.1
            exact update_of_ne hptr ..
          · intro row
            by_cases hptr : row = ptr.row
            · subst hptr
              have hsmall := toNat_remove_lock_bit_lt value
              simp only [setLock, setWorker, update_self]
              omega
            · simp only [setLock, setWorker, update_of_ne hptr]
              exact hinv.small row
      · cases h
    · cases h
    all_goals
      cases h
      exact versionInv_call hinv hpending rfl (fun _ _ => rfl) hinv.small (fun _ _ _ h => h)
  · cases h

theorem versionInv_step {e : CommitLabel W κ ρ} (hinv : VersionInv s) (hok : s.CommitsAbove e)
    (h : s.step e = some t) : VersionInv t := by
  cases e with
  | point w key row remote kind =>
    obtain ⟨-, rfl⟩ := ite_some_none_eq_some.mp h
    exact versionInv_point hinv key row remote kind
  | insert w key next require =>
    obtain ⟨-, rfl⟩ := ite_some_none_eq_some.mp h
    exact versionInv_insert hinv key next require
  | remoteInsert w key require =>
    obtain ⟨-, rfl⟩ := ite_some_none_eq_some.mp h
    exact versionInv_addInsert hinv key false require
  | scan w remote type =>
    obtain ⟨-, rfl⟩ := ite_some_none_eq_some.mp h
    exact versionInv_scan hinv remote type
  | scanRow w row locking_next_tuple =>
    simp only [step] at h
    split at h
    · exact versionInv_scanRow hinv h
    · cases h
  | advanceEpoch epoch =>
    obtain ⟨-, rfl⟩ := ite_some_none_eq_some.mp h
    exact ⟨hinv.small, hinv.owned, hinv.nodup, hinv.tids, hinv.above⟩
  | commit w =>
    obtain ⟨-, rfl⟩ := ite_some_none_eq_some.mp h
    exact versionInv_commit hinv hok
  | abort w =>
    obtain ⟨-, rfl⟩ := ite_some_none_eq_some.mp h
    exact versionInv_abort hinv
  | release w => exact versionInv_release hinv h

omit [DecidableEq W] [DecidableEq ρ] in
theorem versionInv_start : VersionInv (start : CommitSystem W κ ρ) :=
  ⟨fun _ => show (0 : Word).toNat + 1 < 2 ^ 64 by decide, fun _ => forall_mem_nil _,
    fun _ => nodup_nil, fun _ => forall_mem_nil _, fun _ => forall_mem_nil _⟩

-- In every run whose commits find the next rows of their inserts below their own tids,
-- each release that installs a version installs a larger one.
theorem release_installs_larger_version {s : CommitSystem W κ ρ}
    (hreach : Reach step CommitsAbove start s) {w : W} {call : Call κ ρ}
    {rest : List (Call κ ρ)} (hpending : (s.worker w).pending = call :: rest) {row : ρ}
    {value : Word} (hinstalls : call.installs = some (row, value)) : s.version row < value := by
  have hinv := hreach.invariant versionInv_start fun _ _ _ hinv hok h => versionInv_step hinv hok h
  have hmem : call ∈ (s.worker w).pending := by
    rw [hpending]
    exact mem_cons_self
  exact (hinv.above w call hmem row value hinstalls).2

-- The worker that updated the row last inserts below it.
theorem insert_after_own_update_installs_larger_version :
    ∃ s : CommitSystem (Fin 2) Nat Nat, Reach step CommitsAbove start s ∧
      ∃ value, (s.worker 0).pending =
        [.lock_release false .write (some (.localRow 5)) (some value)] ∧
        s.version 5 < value := by
  obtain ⟨s, hreach, hpending⟩ := exists_reach_of_run step CommitsAbove
    (start : CommitSystem (Fin 2) Nat Nat)
    [.point 0 5 5 false .write, .commit 0, .release 0, .point 0 5 5 false .read,
      .commit 0, .release 0, .insert 0 3 5 true, .commit 0]
    (fun s => (s.worker 0).pending =
      [.lock_release false .write (some (.localRow 5)) (some 3)]) (by decide)
  exact ⟨s, hreach, 3, hpending, release_installs_larger_version hreach hpending rfl⟩

-- Worker 0 updates row 5 in epoch 1; worker 1, which has read nothing, inserts below it
-- and installs its own first tid.
theorem insert_lowers_version_of_next_row :
    ∃ s : CommitSystem (Fin 2) Nat Nat, Reach step (fun _ _ => True) start s ∧
      s.version 5 = 1 <<< 32 ∧
      (s.worker 1).pending = [.lock_release false .write (some (.localRow 5)) (some 1)] :=
  exists_reach_of_run _ _ _
    [.advanceEpoch 1, .point 0 5 5 false .write, .commit 0, .release 0, .insert 1 3 5 true,
      .commit 1] _ (by decide)

end CommitSystem

end Tigon.TwoPLPasha
