import Tigon.TwoPLPasha.TransactionSystem.Accounts

namespace Tigon.TwoPLPasha

open List Option ScanKey Phase Tigon.Library

def Phase.processing {κ ρ : Type} : Phase κ ρ → Bool
  | executing | reads _ | scans _ | inserts _ | responses => true
  | syncing | releasing _ | returned => false

namespace TransactionSystem

variable {κ ρ : Type}

def nextRead (s : TransactionSystem κ ρ) : Option (ReadKey κ ρ) :=
  match s.phase with
  | .reads (n + 1) => s.txn.readSet[n]?
  | _ => none

def nextScan (s : TransactionSystem κ ρ) : Option (ScanKey ρ) :=
  match s.phase with
  | .scans (n + 1) => s.txn.scanSet[n]?
  | _ => none

def nextCall (s : TransactionSystem κ ρ) : Option (Call κ ρ) :=
  match s.phase with
  | .releasing (call :: _) => some call
  | _ => none

-- An abort leaves no counts of rows it was to delete.
def AbortsCounted (txn : Transaction κ ρ) : Prop :=
  ∀ k ∈ txn.scanSet, k.has_master_partition = false → k.type = .SCAN_FOR_DELETE →
    k.scan_results = []

-- Scans, and inserts that lock their next row, do not go to a replica; a counted request is
-- not processed again; a local scan does not run past the last tuple; an abort finds no
-- results of a remote scan for delete; a commit finds no remote insert that was to lock its
-- next row; and a key still leads to the row counted under it.
def KeepsAccount (s : TransactionSystem κ ρ) : TransactionLabel κ ρ → Prop
  | .add_to_scan_set _ has_master_partition read_on_replica =>
    has_master_partition = true ∨ read_on_replica = false
  | .add_to_insert_set _ has_master_partition read_on_replica require_lock_next_row =>
    require_lock_next_row = true → has_master_partition = true ∨ read_on_replica = false
  | .read _ => ∀ k ∈ s.nextRead, k.processed = false → k.reference_counted = false
  | .scan visits => ∀ k ∈ s.nextScan, k.processed = false → k.has_master_partition = true →
      ∃ v ∈ visits, v.locking_next_tuple = true ∨ v.success = false
  | .abort => AbortsCounted s.txn
  | .commit =>
    if s.abort_lock then AbortsCounted s.txn
    else ∀ k ∈ s.txn.insertSet, k.is_next_row_locked = true → k.has_master_partition = true
  | .remote_insert_response key_offset moved =>
    ∀ k ∈ s.txn.insertSet[key_offset]?, moved = s.cxl_index k.key
  | .release => ∀ call ∈ s.nextCall, ∀ k ∈ s.txn.readSet, call = .release_migrated_row k.key →
      k.reference_counted = true → s.cxl_index k.key = k.cached_migrated_row
  | _ => True

instance (txn : Transaction κ ρ) : Decidable (AbortsCounted txn) :=
  inferInstanceAs (Decidable (∀ k ∈ txn.scanSet, k.has_master_partition = false →
    k.type = .SCAN_FOR_DELETE → k.scan_results = []))

instance [DecidableEq κ] [DecidableEq ρ] (s : TransactionSystem κ ρ) (e : TransactionLabel κ ρ) :
    Decidable (s.KeepsAccount e) := by
  cases e <;> unfold KeepsAccount <;> infer_instance

inductive Balanced (s : TransactionSystem κ ρ) : Prop
  | processing (hphase : s.phase.processing = true)
      (haccounts : Accounts s.txn s.pending s.ledger)
      (huncounted : ∀ k ∈ s.txn.insertSet, k.reference_counted = false)
  | syncing (hphase : s.phase = .syncing) (haccounts : Accounts s.txn s.pending s.ledger)
      (hlocal : ∀ k ∈ s.txn.insertSet, k.is_next_row_locked = true →
        k.has_master_partition = true)
  | releasing {calls : List (Call κ ρ)} {owed left : Multiset (Resource ρ)}
      (hphase : s.phase = .releasing calls) (hsettles : Settles (Returns s.txn.Counted) calls owed)
      (hledger : s.ledger = some (owed + left)) (hleft : ∀ r ∈ left, r.row ∈ s.deleted)
  | returned {left : Multiset (Resource ρ)} (hphase : s.phase = .returned)
      (hledger : s.ledger = some left) (hleft : ∀ r ∈ left, r.row ∈ s.deleted)

variable {s t : TransactionSystem κ ρ}

theorem Balanced.of_processing (h : s.Balanced) {phase : Phase κ ρ} (hphase : s.phase = phase)
    (hprocessing : phase.processing = true) :
    Accounts s.txn s.pending s.ledger ∧ ∀ k ∈ s.txn.insertSet, k.reference_counted = false := by
  subst hphase
  cases h with
  | processing _ haccounts huncounted => exact ⟨haccounts, huncounted⟩
  | syncing h | releasing h | returned h =>
    rw [h] at hprocessing
    cases hprocessing

theorem Balanced.of_syncing (h : s.Balanced) (hphase : s.phase = .syncing) :
    Accounts s.txn s.pending s.ledger ∧
      ∀ k ∈ s.txn.insertSet, k.is_next_row_locked = true → k.has_master_partition = true := by
  cases h with
  | syncing _ haccounts hlocal => exact ⟨haccounts, hlocal⟩
  | processing h | releasing h | returned h =>
    rw [hphase] at h
    cases h

theorem Balanced.of_releasing (h : s.Balanced) {calls : List (Call κ ρ)}
    (hphase : s.phase = .releasing calls) :
    ∃ owed left, Settles (Returns s.txn.Counted) calls owed ∧ s.ledger = some (owed + left) ∧
      ∀ r ∈ left, r.row ∈ s.deleted := by
  cases h with
  | releasing h hsettles hledger hleft =>
    rw [hphase] at h
    cases h
    exact ⟨_, _, hsettles, hledger, hleft⟩
  | processing h | syncing h | returned h =>
    rw [hphase] at h
    cases h

-- A loop goes on after an entry: the answer to it is awaited or not, and those that were
-- awaited still are.
theorem balanced_advance {next : Phase κ ρ} {request : Pending} {progress : Progress} {P : Prop}
    (hnext : next.processing = true) (hnodup : s.pending.Nodup) (hnot : request ∉ s.pending)
    (hwaiting : progress = .sent → P)
    (huncounted : ∀ k ∈ s.txn.insertSet, k.reference_counted = false)
    (haccounts : ∀ pending', (pending'.Nodup ∧
      ∀ p ∈ pending', p = request ∧ P ∨ p ≠ request ∧ p ∈ s.pending) →
      Accounts s.txn pending' s.ledger) :
    (s.advance next request progress).Balanced := by
  have hstay : ∀ p ∈ s.pending, p = request ∧ P ∨ p ≠ request ∧ p ∈ s.pending := by
    intro p hp
    exact .inr ⟨fun h => hnot (h ▸ hp), hp⟩
  cases progress with
  | done => exact .processing hnext (haccounts _ ⟨hnodup, hstay⟩) huncounted
  | sent =>
    refine .processing hnext (haccounts _ ⟨nodup_cons.mpr ⟨hnot, hnodup⟩, ?_⟩) huncounted
    intro p hp
    rcases mem_cons.mp hp with rfl | hp
    · exact .inl ⟨rfl, hwaiting rfl⟩
    · exact hstay p hp
  | failed => exact .processing rfl (haccounts _ ⟨hnodup, hstay⟩) huncounted

theorem pending_erase {pending : List Pending} (hnodup : pending.Nodup) (request : Pending) :
    (pending.erase request).Nodup ∧
      ∀ p ∈ pending.erase request, p ≠ request ∧ p ∈ pending :=
  ⟨hnodup.erase request, fun _ hp => (List.Nodup.mem_erase_iff hnodup).mp hp⟩

variable {left : Nat}

theorem balanced_readStep (h : s.Balanced) {answer : PointAnswer ρ} (hphase : s.phase = .reads left)
    (hok : s.KeepsAccount (.read answer)) (hstep : s.readStep left answer = some t) :
    t.Balanced := by
  obtain ⟨haccounts, huncounted⟩ := h.of_processing hphase rfl
  cases left with
  | zero =>
    cases hstep
    exact .processing rfl haccounts huncounted
  | succ n =>
    obtain ⟨k, hk, hstep⟩ := bind_eq_some_iff.mp hstep
    split at hstep
    · cases hstep
      exact .processing rfl haccounts huncounted
    · rename_i hprocessed
      replace hprocessed := eq_false_of_ne_true hprocessed
      obtain ⟨r, hr, rfl⟩ := map_eq_some_iff.mp hstep
      have hcounted : k.reference_counted = false := by
        refine hok k ?_ hprocessed
        rw [nextRead, hphase]
        exact hk
      have hnot : .read n ∉ s.pending := by
        intro hp
        obtain ⟨k', hk', hwaiting⟩ := haccounts.awaits _ hp
        cases hk.symm.trans hk'
        exact absurd (hprocessed.symm.trans hwaiting.processed) (by decide)
      obtain ⟨rest, hledger, hset⟩ := haccounts.setRead hk
      rw [hledger] at hr
      have hrecords := ReadKey.process_records
        (haccounts.sound.reads k (mem_of_getElem? hk)) hprocessed hcounted hr
      refine balanced_advance rfl haccounts.nodup hnot hrecords.waiting huncounted ?_
      intro pending' hpending'
      show Accounts _ pending' r.ledger
      rw [hrecords.ledger]
      exact hset r.entry hrecords.sound pending' hpending'

theorem balanced_scanStep [DecidableEq ρ] (h : s.Balanced) {visits : List (ScanVisit ρ)}
    (hphase : s.phase = .scans left) (hok : s.KeepsAccount (.scan visits))
    (hstep : s.scanStep left visits = some t) : t.Balanced := by
  obtain ⟨haccounts, huncounted⟩ := h.of_processing hphase rfl
  cases left with
  | zero =>
    cases hstep
    exact .processing rfl haccounts huncounted
  | succ n =>
    obtain ⟨k, hk, rfl⟩ := map_eq_some_iff.mp hstep
    split
    · exact .processing rfl haccounts huncounted
    · rename_i hprocessed
      replace hprocessed := eq_false_of_ne_true hprocessed
      have hstops : k.has_master_partition = true →
          ∃ v ∈ visits, v.locking_next_tuple = true ∨ v.success = false := by
        refine hok k ?_ hprocessed
        rw [nextScan, hphase]
        exact hk
      have hnot : .scan n ∉ s.pending := by
        intro hp
        obtain ⟨k', hk', hwaiting⟩ := haccounts.awaits _ hp
        cases hk.symm.trans hk'
        exact absurd (hprocessed.symm.trans hwaiting.processed) (by decide)
      obtain ⟨rest, hledger, hset⟩ := haccounts.setScan hk
      rw [hledger]
      have hrecords : (k.process s.cxl_index visits (some (k.held + rest))).Records
          ScanKey.Sound held Waiting rest :=
        process_records (haccounts.sound.scans k (mem_of_getElem? hk)) hprocessed
          hstops
      refine balanced_advance rfl haccounts.nodup hnot hrecords.waiting huncounted ?_
      intro pending' hpending'
      show Accounts _ pending' (k.process s.cxl_index visits (some (k.held + rest))).ledger
      rw [hrecords.ledger]
      exact hset _ hrecords.sound pending' hpending'

theorem balanced_insertStep (h : s.Balanced) {answer : InsertAnswer ρ}
    (hphase : s.phase = .inserts left) (hstep : s.insertStep left answer = some t) :
    t.Balanced := by
  obtain ⟨haccounts, huncounted⟩ := h.of_processing hphase rfl
  cases left with
  | zero =>
    cases hstep
    exact .processing rfl haccounts huncounted
  | succ n =>
    obtain ⟨k, hk, hstep⟩ := bind_eq_some_iff.mp hstep
    split at hstep
    · cases hstep
      exact .processing rfl haccounts huncounted
    · rename_i hprocessed
      replace hprocessed := eq_false_of_ne_true hprocessed
      obtain ⟨r, hr, rfl⟩ := map_eq_some_iff.mp hstep
      have hmem := mem_of_getElem? hk
      obtain ⟨rest, hledger, hset⟩ := haccounts.setInsert hk
      rw [hledger] at hr
      have hrecords := InsertKey.process_records (haccounts.sound.inserts k hmem) hprocessed
        (huncounted k hmem) hr
      obtain ⟨hmaster, hcounted⟩ := InsertKey.process_frame hr
      have hpending : ∀ p ∈ s.pending,
          p = .insert n ∧ r.entry.Waiting ∨ p ≠ .insert n ∧ p ∈ s.pending := by
        intro p hp
        by_cases heq : p = .insert n
        · subst heq
          obtain ⟨k', hk', hwaiting⟩ := haccounts.awaits _ hp
          cases hk.symm.trans hk'
          exact .inl ⟨rfl, hmaster.trans hwaiting.remote, hcounted.trans hwaiting.uncounted⟩
        · exact .inr ⟨heq, hp⟩
      have hset' := hset r.entry hrecords.sound s.pending ⟨haccounts.nodup, hpending⟩
      rw [← hrecords.ledger] at hset'
      have huncounted' : ∀ k ∈ s.txn.insertSet.set n r.entry, k.reference_counted = false :=
        forall_mem_set huncounted (hcounted.trans (huncounted k hmem))
      refine .processing ?_ hset' huncounted'
      show processing (if r.progress = .failed then .responses else .inserts n) = true
      split <;> rfl

variable {key_offset : Nat}

theorem balanced_readResponse (h : s.Balanced) {moved_in : Bool} {answer : PointAnswer ρ}
    (hphase : s.phase = .responses) (hstep : s.readResponse key_offset moved_in answer = some t) :
    t.Balanced := by
  obtain ⟨haccounts, huncounted⟩ := h.of_processing hphase rfl
  unfold readResponse at hstep
  split at hstep
  · rename_i hmem
    obtain ⟨k, hk, rfl⟩ := map_eq_some_iff.mp hstep
    obtain ⟨k', hk', hwaiting⟩ := haccounts.awaits _ hmem
    cases hk.symm.trans hk'
    obtain ⟨rest, hledger, hset⟩ := haccounts.setRead hk
    have hrecords : (k.data_migration_response s.cxl_index moved_in answer
        (some (k.held + rest))).Records ReadKey.Sound ReadKey.held ReadKey.Waiting rest :=
      ReadKey.response_records (haccounts.sound.reads k (mem_of_getElem? hk)) hwaiting
    obtain ⟨hnodup, herase⟩ := pending_erase haccounts.nodup (.read key_offset)
    have hset' := hset _ hrecords.sound _ ⟨hnodup, fun p hp => .inr (herase p hp)⟩
    rw [← hrecords.ledger, ← hledger] at hset'
    exact .processing (congrArg processing hphase) hset' huncounted
  · cases hstep

theorem balanced_scanResponse (h : s.Balanced) {visits : List (ScanVisit ρ)}
    (hphase : s.phase = .responses) (hstep : s.scanResponse key_offset visits = some t) :
    t.Balanced := by
  obtain ⟨haccounts, huncounted⟩ := h.of_processing hphase rfl
  unfold scanResponse at hstep
  split at hstep
  · rename_i hmem
    obtain ⟨k, hk, rfl⟩ := map_eq_some_iff.mp hstep
    obtain ⟨k', hk', hwaiting⟩ := haccounts.awaits _ hmem
    cases hk.symm.trans hk'
    obtain ⟨rest, hledger, hset⟩ := haccounts.setScan hk
    have hrecords : (k.data_migration_response_for_scan visits (some (k.held + rest))).Records
        ScanKey.Sound held Waiting rest :=
      response_records (haccounts.sound.scans k (mem_of_getElem? hk)) hwaiting
    obtain ⟨hnodup, herase⟩ := pending_erase haccounts.nodup (.scan key_offset)
    have hset' := hset _ hrecords.sound _ ⟨hnodup, fun p hp => .inr (herase p hp)⟩
    rw [← hrecords.ledger, ← hledger] at hset'
    exact .processing (congrArg processing hphase) hset' huncounted
  · cases hstep

theorem balanced_insertResponse (h : s.Balanced) {moved : Option ρ} (hphase : s.phase = .syncing)
    (hok : s.KeepsAccount (.remote_insert_response key_offset moved))
    (hstep : s.insertResponse key_offset moved = some t) : t.Balanced := by
  obtain ⟨haccounts, hlocal⟩ := h.of_syncing hphase
  unfold insertResponse at hstep
  split at hstep
  · rename_i hmem
    obtain ⟨k, hk, hstep⟩ := bind_eq_some_iff.mp hstep
    obtain ⟨r, hr, rfl⟩ := map_eq_some_iff.mp hstep
    obtain ⟨k', hk', hwaiting⟩ := haccounts.awaits _ hmem
    cases hk.symm.trans hk'
    obtain ⟨rest, hledger, hset⟩ := haccounts.setInsert hk
    rw [hledger] at hr
    obtain ⟨hsound, hrecords⟩ := InsertKey.response_records
      (haccounts.sound.inserts k (mem_of_getElem? hk)) hwaiting (hok k hk) hr
    obtain ⟨hnodup, herase⟩ := pending_erase haccounts.nodup (.insert key_offset)
    have hset' := hset r.1 hsound _ ⟨hnodup, fun p hp => .inr (herase p hp)⟩
    rw [← hrecords] at hset'
    refine .syncing hphase hset' (forall_mem_set hlocal fun hlocked => ?_)
    obtain ⟨row, -, rfl⟩ := map_eq_some_iff.mp hr
    exact hlocal k (mem_of_getElem? hk) hlocked
  · cases hstep

theorem balanced_abort (haccounts : Accounts s.txn s.pending s.ledger)
    (hok : AbortsCounted s.txn) : s.abort.Balanced := by
  have hledger : s.ledger = some (s.txn.held + 0) := by
    rw [add_zero]
    exact haccounts.ledger
  refine .releasing rfl (Transaction.settles_abort haccounts.sound hok) hledger fun r hr => ?_
  cases hr

theorem nodup_remoteInserts (insertSet : List (InsertKey κ ρ)) :
    (remoteInserts insertSet).Nodup := by
  refine (nodup_range.filter _).map fun i j h => ?_
  cases h
  rfl

theorem awaits_remoteInserts {txn : Transaction κ ρ}
    (huncounted : ∀ k ∈ txn.insertSet, k.reference_counted = false) :
    ∀ p ∈ remoteInserts txn.insertSet, Awaits txn p := by
  intro p hp
  obtain ⟨i, hi, rfl⟩ := mem_map.mp hp
  obtain ⟨k, hk, hremote⟩ := (Option.any_eq_true ..).mp (mem_filter.mp hi).2
  exact ⟨k, hk, (Bool.not_eq_true' _).mp hremote, huncounted k (mem_of_getElem? hk)⟩

theorem balanced_commit (h : s.Balanced) (hphase : s.phase = .executing)
    (hok : s.KeepsAccount .commit) : s.commit.Balanced := by
  obtain ⟨haccounts, huncounted⟩ := h.of_processing hphase rfl
  unfold commit
  rw [KeepsAccount] at hok
  split
  · rename_i habort
    rw [if_pos habort] at hok
    exact balanced_abort haccounts hok
  · rename_i habort
    rw [if_neg habort] at hok
    exact .syncing rfl ⟨haccounts.sound, haccounts.ledger, nodup_remoteInserts _,
      awaits_remoteInserts huncounted⟩ hok

theorem balanced_finishCommit (h : s.Balanced) (hphase : s.phase = .syncing)
    (commit_tid cur_global_epoch : Word) :
    (s.finishCommit commit_tid cur_global_epoch).Balanced := by
  obtain ⟨haccounts, hlocal⟩ := h.of_syncing hphase
  obtain ⟨owed, hsettles, hheld⟩ := Transaction.settles_commit haccounts.sound hlocal commit_tid
    cur_global_epoch
  refine .releasing rfl hsettles (haccounts.ledger.trans (congrArg some hheld)) fun r hr => ?_
  obtain ⟨k, hk, hr⟩ := exists_mem_of_mem_sum_map hr
  obtain ⟨ptr, hptr, hrow⟩ := exists_row_of_mem_tuplesOf hr
  refine mem_flatMap.mpr ⟨k, hk, ?_⟩
  unfold dropped at hptr
  split at hptr
  · rename_i htype
    rw [if_pos htype, ← hrow]
    exact mem_map_of_mem hptr
  · cases hptr

theorem balanced_releaseStep [DecidableEq ρ] (h : s.Balanced) {calls : List (Call κ ρ)}
    (hphase : s.phase = .releasing calls) (hok : s.KeepsAccount .release) :
    (s.releaseStep calls).Balanced := by
  obtain ⟨owed, left, hsettles, hledger, hleft⟩ := h.of_releasing hphase
  cases hsettles with
  | nil =>
    rw [zero_add] at hledger
    exact .returned rfl hledger hleft
  | cons hreturns hsettles =>
    rename_i call calls part owed
    refine .releasing rfl hsettles ?_ hleft
    rw [add_assoc] at hledger
    show call.apply s.cxl_index s.ledger = some (owed + left)
    rw [hledger]
    refine apply_of_returns hreturns ?_ _
    rintro key row rfl ⟨k, hk, rfl, hcounted, hrow⟩
    rw [← hrow]
    refine hok (.release_migrated_row k.key) ?_ k hk rfl hcounted
    rw [nextCall, hphase]
    rfl

theorem balanced_step [DecidableEq κ] [DecidableEq ρ] {e : TransactionLabel κ ρ} (h : s.Balanced)
    (hok : s.KeepsAccount e) (hstep : s.step e = some t) : t.Balanced := by
  cases e with
  | add_to_read_set request key has_master_partition =>
    obtain ⟨hphase, rfl⟩ := ite_some_none_eq_some.mp hstep
    obtain ⟨haccounts, huncounted⟩ := h.of_processing hphase rfl
    exact .processing (congrArg processing hphase) (haccounts.addRead ..) huncounted
  | add_to_scan_set type has_master_partition read_on_replica =>
    obtain ⟨hphase, rfl⟩ := ite_some_none_eq_some.mp hstep
    obtain ⟨haccounts, huncounted⟩ := h.of_processing hphase rfl
    exact .processing (congrArg processing hphase) (haccounts.addScan type hok) huncounted
  | add_to_insert_set key has_master_partition read_on_replica require_lock_next_row =>
    obtain ⟨hphase, rfl⟩ := ite_some_none_eq_some.mp hstep
    obtain ⟨haccounts, huncounted⟩ := h.of_processing hphase rfl
    refine .processing (congrArg processing hphase) (haccounts.addInsert key hok) ?_
    exact forall_mem_append.mpr ⟨huncounted, forall_mem_singleton.mpr rfl⟩
  | process_requests =>
    obtain ⟨hphase, rfl⟩ := ite_some_none_eq_some.mp hstep
    obtain ⟨haccounts, huncounted⟩ := h.of_processing hphase rfl
    exact .processing rfl haccounts huncounted
  | read answer =>
    rw [step] at hstep
    split at hstep
    · rename_i left hphase
      exact balanced_readStep h hphase hok hstep
    · cases hstep
  | scan visits =>
    rw [step] at hstep
    split at hstep
    · rename_i left hphase
      exact balanced_scanStep h hphase hok hstep
    · cases hstep
  | insert answer =>
    rw [step] at hstep
    split at hstep
    · rename_i left hphase
      exact balanced_insertStep h hphase hstep
    · cases hstep
  | data_migration_response key_offset moved_in answer =>
    rw [step] at hstep
    split at hstep
    · rename_i hphase
      exact balanced_readResponse h hphase hstep
    · cases hstep
  | data_migration_response_for_scan key_offset visits =>
    rw [step] at hstep
    split at hstep
    · rename_i hphase
      exact balanced_scanResponse h hphase hstep
    · cases hstep
  | return_from_requests =>
    obtain ⟨⟨hphase, -⟩, rfl⟩ := ite_some_none_eq_some.mp hstep
    obtain ⟨haccounts, huncounted⟩ := h.of_processing hphase rfl
    exact .processing rfl haccounts huncounted
  | commit =>
    obtain ⟨hphase, rfl⟩ := ite_some_none_eq_some.mp hstep
    exact balanced_commit h hphase hok
  | remote_insert_response key_offset moved =>
    rw [step] at hstep
    split at hstep
    · rename_i hphase
      exact balanced_insertResponse h hphase hok hstep
    · cases hstep
  | finish_commit commit_tid cur_global_epoch =>
    obtain ⟨⟨hphase, -⟩, rfl⟩ := ite_some_none_eq_some.mp hstep
    exact balanced_finishCommit h hphase commit_tid cur_global_epoch
  | abort =>
    obtain ⟨hphase, rfl⟩ := ite_some_none_eq_some.mp hstep
    obtain ⟨haccounts, -⟩ := h.of_processing hphase rfl
    exact balanced_abort haccounts hok
  | release =>
    rw [step] at hstep
    split at hstep
    · rename_i calls hphase
      cases hstep
      exact balanced_releaseStep h hphase hok
    · cases hstep
  | changeIndex key row =>
    cases hstep
    cases h with
    | processing hphase haccounts huncounted => exact .processing hphase haccounts huncounted
    | syncing hphase haccounts hlocal => exact .syncing hphase haccounts hlocal
    | releasing hphase hsettles hledger hleft => exact .releasing hphase hsettles hledger hleft
    | returned hphase hledger hleft => exact .returned hphase hledger hleft

theorem balanced_start (cxl_index : κ → Option ρ) : (start cxl_index).Balanced := by
  have hsound : (start cxl_index).txn.Sound :=
    ⟨forall_mem_nil _, forall_mem_nil _, forall_mem_nil _⟩
  exact .processing rfl ⟨hsound, rfl, nodup_nil, forall_mem_nil _⟩
    (forall_mem_nil _)

-- In every run whose steps meet the condition no lock and no count is given back that is
-- not held, and behind commit or abort what is still held is of rows the transaction has
-- deleted.
theorem locks_and_references_balance [DecidableEq κ] [DecidableEq ρ] {cxl_index : κ → Option ρ}
    (hreach : Reach step KeepsAccount (start cxl_index) s) :
    ∃ held, s.ledger = some held ∧ (s.phase = .returned → ∀ r ∈ held, r.row ∈ s.deleted) := by
  have hbalanced := hreach.invariant (balanced_start cxl_index)
    fun _ _ _ h hok hstep => balanced_step h hok hstep
  cases hbalanced with
  | processing hphase haccounts | syncing hphase haccounts =>
    refine ⟨_, haccounts.ledger, fun h => ?_⟩
    rw [h] at hphase
    cases hphase
  | releasing hphase _ hledger =>
    refine ⟨_, hledger, fun h => ?_⟩
    rw [h] at hphase
    cases hphase
  | returned _ hledger hleft => exact ⟨_, hledger, fun _ => hleft⟩

-- A remote update that has to wait for its row, a local scan and a remote insert commit.
theorem commit_of_mixed_transaction_balances :
    ∃ s : TransactionSystem Nat Nat, Reach step KeepsAccount (start fun _ => none) s ∧
      s.phase = .returned ∧ s.deleted = [] ∧
      ∃ held, s.ledger = some held ∧ ∀ r ∈ held, r.row ∈ s.deleted := by
  obtain ⟨s, hreach, hphase, hdeleted⟩ := exists_reach_of_run step KeepsAccount
    (start fun _ => none : TransactionSystem Nat Nat)
    [.add_to_read_set .search_for_update 5 false, .add_to_scan_set .SCAN_FOR_READ true false,
      .add_to_insert_set 3 false false false, .process_requests,
      .read ⟨none, true, true, 0⟩, .read ⟨none, true, true, 0⟩,
      .scan [⟨1, false, true, true⟩, ⟨2, true, true, true⟩], .scan [],
      .insert ⟨false, none, true⟩, .insert ⟨false, none, true⟩, .changeIndex 5 (some 5),
      .data_migration_response 0 true ⟨none, true, true, 0⟩, .return_from_requests, .commit,
      .changeIndex 3 (some 3), .remote_insert_response 0 (some 3), .finish_commit 1 0,
      .release, .release, .release, .release, .release, .release]
    (fun s => s.phase = .returned ∧ s.deleted = []) (by decide +kernel)
  obtain ⟨held, hledger, hleft⟩ := locks_and_references_balance hreach
  exact ⟨s, hreach, hphase, hdeleted, held, hledger, hleft hphase⟩

-- A remote scan for delete is aborted: the row it was to delete stays counted.
theorem abort_of_remote_delete_leaks_reference :
    ∃ s : TransactionSystem Nat Nat, Reach step (fun _ _ => True) (start fun _ => none) s ∧
      s.phase = .returned ∧ s.deleted = [] ∧ s.ledger = some {.ref_cnt 7} :=
  exists_reach_of_run _ _ _
    [.add_to_scan_set .SCAN_FOR_DELETE false false, .process_requests,
      .read ⟨none, true, true, 0⟩, .scan [⟨7, false, true, true⟩, ⟨9, true, true, true⟩],
      .scan [], .insert ⟨false, none, true⟩, .return_from_requests, .abort, .release, .release,
      .release, .release] _ (by decide +kernel)

end TransactionSystem

end Tigon.TwoPLPasha
