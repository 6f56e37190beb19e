import Tigon.TwoPLPasha.CommitSystem.Versions
import Tigon.TwoPLPasha.LogSystem

namespace Tigon.TwoPLPasha

open Function List CommitSystem Tigon.Library

-- From a version of an earlier epoch, and from none at all, the entry of the write set
-- gets the version the entry of the read set gets.
theorem generate_epoch_version_zero {v g : Word}
    (h : v >>> 32 < g ∨ v = 0 ∧ g = 0) :
    generate_epoch_version 0 g = generate_epoch_version v g := by
  rcases h with h | ⟨rfl, -⟩
  · have hzero : (0 : Word) >>> 32 = 0 := rfl
    have hpos : (0 : Word) < g := by
      rw [BitVec.lt_def] at h ⊢
      exact Nat.lt_of_le_of_lt (Nat.zero_le _) h
    rw [generate_epoch_version, generate_epoch_version, hzero, if_pos hpos, if_pos h]
  · rfl

namespace CommitSystem

variable {W κ ρ : Type} {s t : CommitSystem W κ ρ}

-- Steps that leave the versions and the calls to be made as they are, and lock no row
-- through search_for_update.
structure Quiet (s t : CommitSystem W κ ρ) : Prop where
  version : t.version = s.version
  pending : ∀ w, (t.worker w).pending = (s.worker w).pending
  reads : ∀ w, ∀ k ∈ (t.worker w).txn.readSet, k.write_lock_bit = true →
    k ∈ (s.worker w).txn.readSet

theorem Quiet.refl (s : CommitSystem W κ ρ) : Quiet s s :=
  ⟨rfl, fun _ => rfl, fun _ _ hk _ => hk⟩

variable {w : W}

theorem ne_next_row (hinv : VersionInv s) {k : ReadKey κ ρ} (hk : k ∈ (s.worker w).txn.readSet)
    (hbit : k.write_lock_bit = true) {ptr : RowPtr ρ} (hptr : ptr ∈ k.cached_row)
    {i : InsertKey κ ρ} (hi : i ∈ (s.worker w).txn.insertSet)
    (hlocked : i.is_next_row_locked = true) {next : RowPtr ρ} (hnext : next ∈ i.next_row_entity) :
    ptr.row ≠ next.row := by
  have hnodup := hinv.nodup w
  rw [held, Transaction.written, append_assoc, append_assoc, nodup_append] at hnodup
  have hread : ptr.row ∈
      (s.worker w).txn.readSet.flatMap fun k => k.abort.filterMap Call.unlocks := by
    refine mem_flatMap.mpr ⟨k, hk, mem_filterMap.mpr
      ⟨.lock_release (!k.has_master_partition) .write k.cached_row none, ?_, ?_⟩⟩
    · simp [ReadKey.abort, ReadKey.releases, hbit]
    · rw [Option.mem_def.mp hptr]
      rfl
  have hinsert : next.row ∈
      (s.worker w).txn.insertSet.flatMap fun k => (k.release_lock 0).filterMap Call.unlocks := by
    refine mem_flatMap.mpr ⟨i, hi, ?_⟩
    rw [InsertKey.release_lock, if_pos hlocked, Option.mem_def.mp hnext]
    exact mem_singleton_self _
  exact hnodup.2.2 _ hread _ (mem_append_left _ hinsert)

variable [DecidableEq W]

theorem quiet_txn {txn : Transaction κ ρ}
    (hworker : t.worker = update s.worker w { s.worker w with txn := txn })
    (hversion : t.version = s.version)
    (hreads : ∀ k ∈ txn.readSet, k.write_lock_bit = true → k ∈ (s.worker w).txn.readSet) :
    Quiet s t := by
  refine ⟨hversion, ?_, ?_⟩
  · intro w'
    rw [hworker]
    by_cases hw : w' = w
    · subst hw
      rw [update_self]
    · rw [update_of_ne hw]
  · intro w' k hk
    rw [hworker] at hk
    by_cases hw : w' = w
    · subst hw
      rw [update_self] at hk
      exact hreads k hk
    · rw [update_of_ne hw] at hk
      exact fun _ => hk

variable [DecidableEq ρ]

theorem quiet_insert (w : W) (key : κ) (next : ρ) (require : Bool) :
    Quiet s (s.insert w key next require) := by
  rw [insert]
  split
  · split
    · exact quiet_txn rfl rfl fun _ hk _ => hk
    · exact .refl s
  · exact quiet_txn rfl rfl fun _ hk _ => hk

theorem quiet_scanRow {row : ρ} {locking_next_tuple : Bool}
    (h : s.scanRow w row locking_next_tuple = some t) : Quiet s t := by
  rw [scanRow] at h
  split at h
  · split at h
    · cases h
    · split at h
      · cases h
        exact quiet_txn rfl rfl fun _ hk _ => hk
      · cases h
        exact .refl s
  · cases h

theorem quiet_point {key : κ} {row : ρ} {remote : Bool} {kind : LockKind}
    (h : ¬(kind = .write ∧ ((s.lock row).take kind w).isSome)) :
    Quiet s (s.point w key row remote kind) := by
  rw [point]
  split
  · rename_i lock htake
    refine quiet_txn rfl rfl fun k hk hbit => ?_
    rcases mem_append.mp hk with hk | hk
    · exact hk
    · rw [mem_singleton.mp hk] at hbit
      exact absurd ⟨by simpa using hbit, by rw [htake]; rfl⟩ h
  · exact .refl s

theorem point_frame (w : W) (key : κ) (row : ρ) (remote : Bool) (kind : LockKind) :
    (s.point w key row remote kind).version = s.version ∧
    ∀ w', ((s.point w key row remote kind).worker w').pending = (s.worker w').pending ∧
      ∀ k ∈ ((s.point w key row remote kind).worker w').txn.readSet,
        k ∈ (s.worker w').txn.readSet ∨ ∀ ptr ∈ k.cached_row, ptr.row = row := by
  rw [point]
  split
  · refine ⟨rfl, fun w' => ?_⟩
    by_cases hw : w' = w
    · subst hw
      simp only [setTxn, setWorker, setLock, update_self]
      refine ⟨trivial, fun k hk => ?_⟩
      rcases mem_append.mp hk with hk | hk
      · exact .inl hk
      · right
        intro ptr hptr
        rw [mem_singleton.mp hk] at hptr
        cases remote <;> cases hptr <;> rfl
    · simp only [setTxn, setWorker, setLock, update_of_ne hw]
      exact ⟨trivial, fun k hk => .inl hk⟩
  · exact ⟨rfl, fun w' => ⟨rfl, fun k hk => .inl hk⟩⟩

theorem release_frame (h : s.release w = some t) :
    ∃ call rest, (s.worker w).pending = call :: rest ∧
      t.worker = update s.worker w { s.worker w with pending := rest } ∧
      t.version = (match call.installs with
        | some (row, value) => update s.version row (remove_lock_bit value)
        | none => s.version) := by
  rw [release] at h
  split at h
  · rename_i call rest hpending
    refine ⟨call, rest, hpending, ?_⟩
    rw [apply.eq_def] at h
    split at h
    · split at h
      · split at h
        all_goals
          cases h
          exact ⟨rfl, rfl⟩
      · cases h
    · cases h
    all_goals
      cases h
      exact ⟨rfl, rfl⟩
  · cases h

end CommitSystem

namespace LogSystem

variable {W κ ρ α : Type} {s t : LogSystem W κ ρ α}

-- The lock calls return the row's current version: no version reaches into the lock bits.
def ReturnsVersion (s : LogSystem W κ ρ α) : LogLabel W κ ρ α → Prop
  | .txn (.release w) =>
    ∀ call ∈ (s.base.worker w).pending.head?, ∀ installed ∈ call.installs,
      remove_lock_bit installed.2 = installed.2
  | _ => True

-- A commit that logs an update of a row finds there the version of an earlier epoch, or
-- the first one in the first epoch.
def UpdatesOlder [DecidableEq ρ] (s : LogSystem W κ ρ α) : LogLabel W κ ρ α → Prop
  | .txn (.commit w) =>
    s.base.CommitsAbove (.commit w) ∧
    ∀ k ∈ s.writeSet w, s.searched w k.row = true →
      s.base.version k.row >>> 32 < s.base.epoch ∨
        s.base.version k.row = 0 ∧ s.base.epoch = 0
  | _ => True

def WillInstall (s : LogSystem W κ ρ α) (row : ρ) (version : Word) : Prop :=
  ∃ w, ∃ call ∈ (s.base.worker w).pending, call.installs = some (row, version)

def Ordered (log : List (LoggedUpdate κ ρ α)) : Prop :=
  ∀ u ∈ log, ∀ u' ∈ log, u.record.row = u'.record.row → ∀ n ∈ u.lock, ∀ n' ∈ u'.lock, n < n' →
    u.record.epoch_version < u'.record.epoch_version

def Installed (u : LoggedUpdate κ ρ α) : Prop :=
  u.lock.isSome → ∀ version,
    (u.record.row, version) ∈ u.calls.filterMap Call.installs ↔ version = u.record.epoch_version

structure LogInv [DecidableEq ρ] (s : LogSystem W κ ρ α) : Prop where
  versions : s.base.VersionInv
  tids : ∀ w, ∀ k ∈ s.writeSet w, k.tid = 0
  past : ∀ u ∈ s.log, ∀ n ∈ u.lock, n ≤ s.acquired u.record.row ∧
    (u.record.epoch_version ≤ s.base.version u.record.row ∨
      s.WillInstall u.record.row u.record.epoch_version)
  newer : ∀ w row, s.searched w row = true → ∀ u ∈ s.log, u.record.row = row →
    ∀ n ∈ u.lock, n < s.acquired row
  ordered : Ordered s.log
  installed : ∀ u ∈ s.log, Installed u

variable [DecidableEq ρ] {w : W} {row : ρ}

theorem searched_iff : s.searched w row = true ↔
    ∃ k ∈ (s.base.worker w).txn.readSet, k.write_lock_bit = true ∧
      ∃ ptr ∈ k.cached_row, ptr.row = row := by
  simp only [searched, any_eq_true, Bool.and_eq_true, Option.any_eq_true, beq_iff_eq,
    Option.mem_def]

theorem mem_held_of_searched (h : s.searched w row = true) : row ∈ s.base.held w := by
  obtain ⟨k, hk, hbit, ptr, hptr, rfl⟩ := searched_iff.mp h
  exact mem_held_of_read w hk hbit hptr

theorem installed_of_searched (hinv : LogInv s) (hempty : (s.base.worker w).pending = [])
    (h : s.searched w row = true) {u : LoggedUpdate κ ρ α} (hu : u ∈ s.log)
    (hrow : u.record.row = row) {n : Nat} (hn : n ∈ u.lock) :
    u.record.epoch_version ≤ s.base.version row := by
  subst hrow
  rcases (hinv.past u hu n hn).2 with hle | ⟨w', call, hcall, hi⟩
  · exact hle
  · have hunlocks := (hinv.versions.above w' call hcall _ _ hi).1
    have hheld' := mem_held_of_pending w' hcall hunlocks
    by_cases hw : w' = w
    · subst hw
      rw [hempty] at hcall
      cases hcall
    · exact absurd hheld'
        (not_mem_held_of_owned hinv.versions hw (mem_held_of_searched h))

theorem logInv_frame (hinv : LogInv s) (hversions : t.base.VersionInv)
    (htids : ∀ w, ∀ k ∈ t.writeSet w, k.tid = 0) (hlog : t.log = s.log)
    (hacquired : t.acquired = s.acquired)
    (hsearched : ∀ w row, t.searched w row = true → s.searched w row = true)
    (hpast : ∀ row version, version ≤ s.base.version row ∨ s.WillInstall row version →
      version ≤ t.base.version row ∨ t.WillInstall row version) : LogInv t := by
  refine ⟨hversions, htids, ?_, ?_, ?_, ?_⟩
  · intro u hu n hn
    rw [hlog] at hu
    rw [hacquired]
    obtain ⟨hle, hold⟩ := hinv.past u hu n hn
    exact ⟨hle, hpast _ _ hold⟩
  · intro w row hrow u hu
    rw [hlog] at hu
    rw [hacquired]
    exact hinv.newer w row (hsearched w row hrow) u hu
  · rw [hlog]
    exact hinv.ordered
  · rw [hlog]
    exact hinv.installed

variable {base : CommitSystem W κ ρ}

theorem searched_of_quiet (hquiet : s.base.Quiet base)
    (h : searched { s with base := base } w row = true) : s.searched w row = true := by
  obtain ⟨k, hk, hbit, hptr⟩ := searched_iff.mp h
  exact searched_iff.mpr ⟨k, hquiet.reads w k hk hbit, hbit, hptr⟩

theorem logInv_quiet (hinv : LogInv s) (hversions : base.VersionInv) (hquiet : s.base.Quiet base) :
    LogInv { s with base := base } := by
  refine logInv_frame hinv hversions hinv.tids rfl rfl (fun w row => searched_of_quiet hquiet) ?_
  rintro row version (hle | ⟨w, call, hcall, hi⟩)
  · left
    rw [hquiet.version]
    exact hle
  · right
    exact ⟨w, call, by rw [hquiet.pending]; exact hcall, hi⟩

variable [DecidableEq W]

theorem logInv_search_for_update (hinv : LogInv s) {key : κ} {remote : Bool}
    (hversions : (s.base.point w key row remote .write).VersionInv) :
    LogInv { s with
      base := s.base.point w key row remote .write
      acquired := update s.acquired row (s.acquired row + 1) } := by
  obtain ⟨hversion, hworker⟩ :=
    point_frame (s := s.base) w key row remote .write
  have hacquired : ∀ r, s.acquired r ≤ update s.acquired row (s.acquired row + 1) r := by
    intro r
    by_cases hr : r = row
    · subst hr
      rw [update_self]
      omega
    · rw [update_of_ne hr]
  refine ⟨hversions, hinv.tids, ?_, ?_, hinv.ordered, hinv.installed⟩
  · intro u hu n hn
    obtain ⟨hle, hold⟩ := hinv.past u hu n hn
    refine ⟨hle.trans (hacquired _), ?_⟩
    rcases hold with hold | ⟨w', call, hcall, hi⟩
    · left
      simp only [hversion]
      exact hold
    · right
      refine ⟨w', call, ?_, hi⟩
      simp only [(hworker w').1]
      exact hcall
  · intro w' r hr u hu hrow n hn
    have hle := (hinv.past u hu n hn).1
    rw [hrow] at hle
    by_cases hne : r = row
    · subst hne
      simp only [update_self]
      omega
    · -- any other row was locked before
      obtain ⟨k, hk, hbit, ptr, hptr, rfl⟩ := searched_iff.mp hr
      rcases (hworker w').2 k hk with hk | hnew
      · have hold : s.searched w' ptr.row = true := searched_iff.mpr ⟨k, hk, hbit, ptr, hptr, rfl⟩
        have hlt := hinv.newer w' ptr.row hold u hu hrow n hn
        exact lt_of_lt_of_le hlt (hacquired _)
      · exact absurd (hnew ptr hptr) hne

theorem searched_setWorker {w' : W} {tid : Word} {calls : List (Call κ ρ)}
    (hbase : base = s.base.setWorker w ⟨tid, .empty, calls⟩) (ht : t.base = base)
    (h : t.searched w' row = true) : w' ≠ w ∧ s.searched w' row = true := by
  obtain ⟨k, hk, hbit, hptr⟩ := searched_iff.mp h
  rw [ht, hbase] at hk
  by_cases hw : w' = w
  · subst hw
    simp only [setWorker, update_self] at hk
    cases hk
  · simp only [setWorker, update_of_ne hw] at hk
    exact ⟨hw, searched_iff.mpr ⟨k, hk, hbit, hptr⟩⟩

variable {version : Word}

omit [DecidableEq ρ] in
theorem willInstall_setWorker {tid : Word} {calls : List (Call κ ρ)}
    (ht : t.base = s.base.setWorker w ⟨tid, .empty, calls⟩)
    (hempty : (s.base.worker w).pending = []) (h : s.WillInstall row version) :
    t.WillInstall row version := by
  obtain ⟨w', call, hcall, hi⟩ := h
  refine ⟨w', call, ?_, hi⟩
  by_cases hw : w' = w
  · subst hw
    rw [hempty] at hcall
    cases hcall
  · rw [ht]
    simp only [setWorker, update_of_ne hw]
    exact hcall

theorem tids_of_update (hinv : LogInv s) {entries : List (LoggedKey ρ α)}
    (hentries : ∀ k ∈ entries, k.tid = 0) :
    ∀ w', ∀ k ∈ update s.writeSet w entries w', k.tid = 0 := by
  intro w' k hk
  by_cases hw : w' = w
  · subst hw
    rw [update_self] at hk
    exact hentries k hk
  · rw [update_of_ne hw] at hk
    exact hinv.tids w' k hk

theorem logInv_abort (hinv : LogInv s) (hempty : (s.base.worker w).pending = []) :
    LogInv { s with base := s.base.abort w, writeSet := update s.writeSet w [] } := by
  refine logInv_frame hinv (versionInv_abort hinv.versions)
    (tids_of_update hinv nofun) rfl rfl ?_ ?_
  · exact fun w' row h => (searched_setWorker rfl rfl h).2
  · rintro row version (hle | hwill)
    · exact .inl hle
    · exact .inr (willInstall_setWorker rfl hempty hwill)

omit [DecidableEq W] in
theorem redo_eq_installed (hinv : LogInv s) {k : LoggedKey ρ α} (hk : k ∈ s.writeSet w)
    (hold : s.base.version k.row >>> 32 < s.base.epoch ∨
      s.base.version k.row = 0 ∧ s.base.epoch = 0) :
    (k.redo .update s.base.epoch).epoch_version =
      generate_epoch_version (s.base.version k.row) s.base.epoch := by
  show generate_epoch_version k.tid s.base.epoch = _
  rw [hinv.tids w k hk]
  exact generate_epoch_version_zero hold

theorem installs_commit_iff (hinv : s.base.VersionInv) (hsearched : s.searched w row = true) :
    (row, version) ∈ ((s.base.commit w).worker w).pending.filterMap Call.installs ↔
      version = generate_epoch_version (s.base.version row) s.base.epoch := by
  obtain ⟨k, hk, hbit, ptr, hptr, rfl⟩ := searched_iff.mp hsearched
  have htid := hinv.tids w k hk hbit ptr hptr
  have hcalls : ((s.base.commit w).worker w).pending =
      (s.base.worker w).txn.release_lock (generate_tid (s.base.worker w).max_tid
        (s.base.worker w).txn.readSet) s.base.epoch ++
      (s.base.worker w).txn.release_migrated_rows := by
    simp only [commit, setWorker, update_self]
  rw [hcalls, mem_filterMap]
  constructor
  · rintro ⟨call, hcall, hi⟩
    rcases mem_append.mp hcall with hcall | hcall
    · simp only [Transaction.release_lock, mem_append, mem_flatMap] at hcall
      rcases hcall with (⟨k', hk', hcall⟩ | ⟨i, hi', hcall⟩) | ⟨k', -, hcall⟩
      · obtain ⟨-, hvalue, hbit', ptr', hptr', hrow⟩ := ReadKey.installs_releases hcall hi
        rw [← Option.some.inj hvalue, hinv.tids w k' hk' hbit' ptr' hptr', hrow]
      · obtain ⟨-, -, hlocked, next, hnext, hrow⟩ := InsertKey.installs_release_lock hcall hi
        exact absurd hrow.symm
          (ne_next_row hinv hk hbit hptr hi' hlocked hnext)
      · rw [ScanKey.installs_release_lock hcall] at hi
        cases hi
    · rw [(quiet_release_migrated_rows hcall).2] at hi
      cases hi
  · rintro rfl
    refine ⟨.lock_release (!k.has_master_partition) .write k.cached_row
      (some (generate_epoch_version k.tid s.base.epoch)), ?_, ?_⟩
    · refine mem_append_left _ (mem_append_left _ (mem_append_left _ ?_))
      refine mem_flatMap.mpr ⟨k, hk, ?_⟩
      simp [ReadKey.release_lock, ReadKey.releases, hbit]
    · rw [Option.mem_def.mp hptr, htid]
      rfl

theorem mem_redo {u : LoggedUpdate κ ρ α} (hu : u ∈ s.write_redo_logs_for_commit w) :
    ∃ k ∈ s.writeSet w, u.record = k.redo .update s.base.epoch ∧
      u.calls = ((s.base.commit w).worker w).pending ∧
      ∀ n ∈ u.lock, s.searched w k.row = true ∧ n = s.acquired k.row := by
  obtain ⟨k, hk, rfl⟩ := mem_map.mp hu
  refine ⟨k, hk, rfl, rfl, ?_⟩
  intro n hn
  dsimp only at hn
  split at hn
  · rename_i hsearched
    cases hn
    exact ⟨hsearched, rfl⟩
  · cases hn

theorem logInv_commit (hinv : LogInv s) (hempty : (s.base.worker w).pending = [])
    (hok : UpdatesOlder s (.txn (.commit w))) :
    LogInv { s with
      base := s.base.commit w
      writeSet := update s.writeSet w []
      log := s.log ++ s.write_redo_logs_for_commit w } := by
  obtain ⟨habove, holder⟩ := hok
  have hversions := versionInv_commit hinv.versions habove
  have hnew : ∀ u ∈ s.write_redo_logs_for_commit w, ∀ n ∈ u.lock,
      s.searched w u.record.row = true ∧ n = s.acquired u.record.row ∧
      u.record.epoch_version =
        generate_epoch_version (s.base.version u.record.row) s.base.epoch ∧
      u.calls = ((s.base.commit w).worker w).pending := by
    intro u hu n hn
    obtain ⟨k, hk, hrecord, hcalls, hlock⟩ := mem_redo hu
    obtain ⟨hsearched, hn⟩ := hlock n hn
    rw [hrecord]
    exact ⟨hsearched, hn, redo_eq_installed hinv hk (holder k hk hsearched), hcalls⟩
  refine ⟨hversions, tids_of_update hinv nofun, ?_, ?_, ?_, ?_⟩
  · intro u hu n hn
    rcases mem_append.mp hu with hu | hu
    · obtain ⟨hle, hold⟩ := hinv.past u hu n hn
      refine ⟨hle, hold.imp id fun hwill => willInstall_setWorker rfl hempty hwill⟩
    · obtain ⟨hsearched, rfl, hversion, -⟩ := hnew u hu n hn
      refine ⟨le_rfl, .inr ?_⟩
      have hmem := (installs_commit_iff hinv.versions hsearched).mpr hversion
      obtain ⟨call, hcall, hi⟩ := mem_filterMap.mp hmem
      exact ⟨w, call, hcall, hi⟩
  · intro w' row hrow u hu hu' n hn
    obtain ⟨hw, hsearched⟩ := searched_setWorker rfl rfl hrow
    rcases mem_append.mp hu with hu | hu
    · exact hinv.newer w' row hsearched u hu hu' n hn
    · -- two workers would have the row locked
      have hrow' := (hnew u hu n hn).1
      rw [hu'] at hrow'
      exact absurd (mem_held_of_searched hsearched) (not_mem_held_of_owned
        hinv.versions hw (mem_held_of_searched hrow'))
  · intro u hu u' hu' hrow n hn n' hn' hlt
    rcases mem_append.mp hu with hu | hu
    · rcases mem_append.mp hu' with hu' | hu'
      · exact hinv.ordered u hu u' hu' hrow n hn n' hn' hlt
      · obtain ⟨hsearched, -, hversion, -⟩ := hnew u' hu' n' hn'
        have hle := installed_of_searched hinv hempty hsearched hu hrow hn
        have hgt := lt_generate_epoch_version (hinv.versions.small u'.record.row) habove.1
        rw [hversion]
        rw [BitVec.le_def] at hle
        rw [BitVec.lt_def] at hgt ⊢
        omega
    · obtain ⟨hsearched, hn, -, -⟩ := hnew u hu n hn
      rw [hrow] at hsearched hn
      rcases mem_append.mp hu' with hu' | hu'
      · have hlt' := hinv.newer w _ hsearched u' hu' rfl n' hn'
        omega
      · have hn' := (hnew u' hu' n' hn').2.1
        omega
  · intro u hu
    rcases mem_append.mp hu with hu | hu
    · exact hinv.installed u hu
    · intro hlock version
      obtain ⟨n, hn⟩ := Option.isSome_iff_exists.mp hlock
      obtain ⟨hsearched, -, hversion, hcalls⟩ := hnew u hu n hn
      rw [hcalls, hversion]
      exact installs_commit_iff hinv.versions hsearched

omit [DecidableEq ρ] in
theorem WillInstall.release {call : Call κ ρ} {rest : List (Call κ ρ)}
    (hpending : (s.base.worker w).pending = call :: rest)
    (hworker : base.worker = update s.base.worker w { s.base.worker w with pending := rest })
    (hne : call.installs ≠ some (row, version)) (h : s.WillInstall row version) :
    WillInstall { s with base := base } row version := by
  obtain ⟨hself, hother⟩ := Function.eq_update_iff.mp hworker
  obtain ⟨w', c, hc, hi⟩ := h
  refine ⟨w', c, ?_, hi⟩
  by_cases hw : w' = w
  · subst hw
    rw [hpending] at hc
    rcases mem_cons.mp hc with rfl | hc
    · exact absurd hi hne
    · simp only [hself]
      exact hc
  · simp only [hother w' hw]
    exact hc

theorem logInv_release (hinv : LogInv s) (hok : ReturnsVersion s (.txn (.release w)))
    (h : s.base.release w = some base) : LogInv { s with base := base } := by
  obtain ⟨call, rest, hpending, hworker, hversion⟩ := release_frame h
  have hmem : call ∈ (s.base.worker w).pending := by
    rw [hpending]
    exact mem_cons_self
  obtain ⟨hself, hother⟩ := Function.eq_update_iff.mp hworker
  have hwill : ∀ row version, call.installs ≠ some (row, version) → s.WillInstall row version →
      WillInstall { s with base := base } row version :=
    fun _ _ hne hwill => hwill.release hpending hworker hne
  have hversions := versionInv_release hinv.versions h
  refine logInv_frame hinv hversions hinv.tids rfl rfl ?_ ?_
  · intro w' row hrow
    obtain ⟨k, hk, hbit, hptr⟩ := searched_iff.mp hrow
    refine searched_iff.mpr ⟨k, ?_, hbit, hptr⟩
    by_cases hw : w' = w
    · subst hw
      simp only [hself] at hk
      exact hk
    · simp only [hother w' hw] at hk
      exact hk
  · intro row version hold
    cases hi : call.installs with
    | none =>
      rw [hi] at hversion
      simp only [hversion]
      exact hold.imp id (hwill row version (by rw [hi]; nofun))
    | some installed =>
      obtain ⟨r, value⟩ := installed
      have hvalue : remove_lock_bit value = value :=
        hok call (by rw [hpending]; rfl) (r, value) hi
      rw [hi] at hversion
      simp only [hvalue] at hversion
      simp only [hversion]
      by_cases hr : row = r
      · subst hr
        left
        rw [update_self]
        rcases hold with hle | hwill'
        · have hlt := (hinv.versions.above w call hmem row value hi).2
          rw [BitVec.lt_def] at hlt
          rw [BitVec.le_def] at hle ⊢
          omega
        · by_cases hne : call.installs = some (row, version)
          · rw [hi] at hne
            cases hne
            exact BitVec.le_refl _
          · -- another call would unlock the same row
            obtain ⟨w', c, hc, hi'⟩ := hwill row version hne hwill'
            have hheld := mem_held_of_pending (s := base) w' hc
              (hversions.above w' c hc row version hi').1
            have hgone := (held_of_call hinv.versions hpending hworker hheld).2
            exact absurd (hinv.versions.above w call hmem row value hi).1 hgone
      · rw [update_of_ne hr]
        refine hold.imp id (hwill row version ?_)
        rw [hi]
        rintro ⟨⟩
        exact hr rfl

theorem logInv_step {e : LogLabel W κ ρ α} (hinv : LogInv s)
    (hreturns : ReturnsVersion s e) (holder : UpdatesOlder s e) (h : s.step e = some t) :
    LogInv t := by
  cases e with
  | update w row value =>
    obtain ⟨-, rfl⟩ := Option.ite_some_none_eq_some.mp h
    refine logInv_frame hinv hinv.versions ?_ rfl rfl (fun _ _ h => h) (fun _ _ h => h)
    refine tids_of_update hinv fun k hk => ?_
    rcases mem_append.mp hk with hk | hk
    · exact hinv.tids w k hk
    · rw [mem_singleton.mp hk]
  | txn e =>
    obtain ⟨base, hbase, rfl⟩ := Option.map_eq_some_iff.mp h
    have hversions : s.base.CommitsAbove e → base.VersionInv :=
      fun hok => versionInv_step hinv.versions hok hbase
    cases e with
    | point w key row remote kind =>
      obtain ⟨-, rfl⟩ := Option.ite_some_none_eq_some.mp hbase
      dsimp only
      rw [acquire]
      split
      · rename_i htake
        obtain ⟨rfl, -⟩ := htake
        exact logInv_search_for_update hinv (hversions trivial)
      · rename_i htake
        exact logInv_quiet hinv (hversions trivial) (quiet_point htake)
    | insert w key next require =>
      obtain ⟨-, rfl⟩ := Option.ite_some_none_eq_some.mp hbase
      exact logInv_quiet hinv (hversions trivial) (quiet_insert w key next require)
    | remoteInsert w key require | scan w remote type =>
      obtain ⟨-, rfl⟩ := Option.ite_some_none_eq_some.mp hbase
      exact logInv_quiet hinv (hversions trivial) (quiet_txn rfl rfl fun _ hk _ => hk)
    | scanRow w row locking_next_tuple =>
      obtain ⟨-, hbase⟩ := Option.ite_none_right_eq_some.mp hbase
      exact logInv_quiet hinv (hversions trivial) (quiet_scanRow hbase)
    | advanceEpoch epoch =>
      obtain ⟨-, rfl⟩ := Option.ite_some_none_eq_some.mp hbase
      exact logInv_quiet hinv (hversions trivial) ⟨rfl, fun _ => rfl, fun _ _ hk _ => hk⟩
    | commit w =>
      obtain ⟨hempty, rfl⟩ := Option.ite_some_none_eq_some.mp hbase
      exact logInv_commit hinv (isEmpty_iff.mp hempty) holder
    | abort w =>
      obtain ⟨hempty, rfl⟩ := Option.ite_some_none_eq_some.mp hbase
      exact logInv_abort hinv (isEmpty_iff.mp hempty)
    | release w => exact logInv_release hinv hreturns hbase

omit [DecidableEq W] in
theorem logInv_start : LogInv (start : LogSystem W κ ρ α) :=
  ⟨versionInv_start, nofun, nofun, nofun, nofun, nofun⟩

-- When lock calls return the row's version and every update that is logged meets a version
-- of an earlier epoch, the log orders the updates of a row as their locks do, and each is
-- logged under the version that its release installs.
theorem logged_versions_order_updates {s : LogSystem W κ ρ α}
    (hreach : Reach step (fun s e => ReturnsVersion s e ∧ UpdatesOlder s e) start s) :
    Ordered s.log ∧ ∀ u ∈ s.log, Installed u := by
  have hinv := hreach.invariant logInv_start
    fun _ _ _ hinv hok h => logInv_step hinv hok.1 hok.2 h
  exact ⟨hinv.ordered, hinv.installed⟩

instance (s : LogSystem W κ ρ α) (e : LogLabel W κ ρ α) : Decidable (s.ReturnsVersion e) := by
  unfold ReturnsVersion
  split <;> infer_instance

instance (s : LogSystem W κ ρ α) (e : LogLabel W κ ρ α) : Decidable (s.UpdatesOlder e) := by
  unfold UpdatesOlder
  split <;> infer_instance

theorem updates_in_two_epochs_are_ordered :
    ∃ s : LogSystem (Fin 2) Nat Nat Nat,
      Reach step (fun s e => ReturnsVersion s e ∧ UpdatesOlder s e) start s ∧
      s.log.map (fun u => (u.lock, u.record.epoch_version)) =
        [(some 1, 0x100000000), (some 2, 0x200000000)] ∧
      Ordered s.log ∧ ∀ u ∈ s.log, Installed u := by
  obtain ⟨s, hreach, hlog⟩ := exists_reach_of_run step
    (fun s e => ReturnsVersion s e ∧ UpdatesOlder s e) (start : LogSystem (Fin 2) Nat Nat Nat)
    [.txn (.advanceEpoch 1), .txn (.point 0 5 5 false .write), .update 0 5 70, .txn (.commit 0),
      .txn (.release 0), .txn (.advanceEpoch 2), .txn (.point 1 5 5 false .write),
      .update 1 5 80, .txn (.commit 1), .txn (.release 1)]
    (fun s => s.log.map (fun u => (u.lock, u.record.epoch_version)) =
      [(some 1, 0x100000000), (some 2, 0x200000000)]) (by decide +kernel)
  exact ⟨s, hreach, hlog, logged_versions_order_updates hreach⟩

-- In one epoch both are logged under the same version, and the second release installs
-- another one.
theorem updates_in_one_epoch_are_logged_alike :
    ∃ s : LogSystem (Fin 2) Nat Nat Nat, Reach step ReturnsVersion start s ∧
      ¬Ordered s.log ∧ ∃ u ∈ s.log, ¬Installed u := by
  obtain ⟨s, hreach, u, hu, u', hu', hrow, hlock, hlock', hversion, hinstalls⟩ :=
    exists_reach_of_run step ReturnsVersion (start : LogSystem (Fin 2) Nat Nat Nat)
    [.txn (.advanceEpoch 1), .txn (.point 0 5 5 false .write), .update 0 5 70, .txn (.commit 0),
      .txn (.release 0), .txn (.point 1 5 5 false .write), .update 1 5 80, .txn (.commit 1),
      .txn (.release 1)]
    (fun s => ∃ u ∈ s.log, ∃ u' ∈ s.log, u.record.row = u'.record.row ∧ u.lock = some 1 ∧
      u'.lock = some 2 ∧ u.record.epoch_version = u'.record.epoch_version ∧
      (u'.record.row, u'.record.epoch_version) ∉ u'.calls.filterMap Call.installs)
    (by decide +kernel)
  refine ⟨s, hreach, ?_, u', hu', ?_⟩
  · intro hordered
    have hlt := hordered u hu u' hu' hrow 1 hlock 2 hlock' (by omega)
    rw [hversion] at hlt
    exact BitVec.lt_irrefl _ hlt
  · intro hinstalled
    exact hinstalls ((hinstalled (by rw [hlock']; rfl) _).mpr rfl)

end LogSystem

end Tigon.TwoPLPasha
