import Tigon.TwoPLPasha.Requests.Holdings

namespace Tigon.TwoPLPasha

open List Option Tigon.Library Ledger
open Handled

namespace ReadKey

variable {κ ρ : Type} {k : ReadKey κ ρ}

theorem sound_of_unlocked (hread : k.read_lock_bit = false) (hwrite : k.write_lock_bit = false)
    (hcounted : k.reference_counted = true → k.cached_migrated_row.isSome = true) : k.Sound := by
  refine ⟨fun _ => ⟨hread, hwrite⟩, ?_, hcounted⟩
  rw [hread, hwrite]
  rintro (h | h) <;> cases h

theorem held_of_idle (hread : k.read_lock_bit = false) (hwrite : k.write_lock_bit = false)
    (huncounted : k.reference_counted = false) : k.held = 0 := by
  rw [held_of_unlocked hread hwrite, counts, huncounted, flagged_false, countsOf_nil]

variable {rest : Multiset (Resource ρ)}

theorem records_of_idle {progress : Progress} (hread : k.read_lock_bit = false)
    (hwrite : k.write_lock_bit = false) (huncounted : k.reference_counted = false)
    (hwaiting : progress = .sent → k.Waiting) :
    Records Sound held Waiting ⟨k, some rest, progress⟩ rest := by
  refine ⟨sound_of_unlocked hread hwrite fun h => ?_, ?_, hwaiting⟩
  · rw [huncounted] at h
    cases h
  · rw [held_of_idle hread hwrite huncounted, zero_add]

theorem records_setLockBits (k : ReadKey κ ρ) (ptr : RowPtr ρ) {k' : ReadKey κ ρ}
    {ledger : Ledger (Resource ρ)} (hread : k.read_lock_bit = false)
    (hwrite : k.write_lock_bit = false) (hlocal : k.request.local_index_read_bit = false)
    (hrow : k.cached_row = some ptr)
    (hcounted : k.reference_counted = true → k.cached_migrated_row.isSome = true)
    (hledger : ledger = some (k.held + rest)) (tid : Word)
    (hk' : k' = { k.setLockBits tid k.request.read_lock_request_bit
      k.request.write_lock_request_bit with processed := true }) :
    Records Sound held Waiting ⟨k', ledger.take (.lock k.kind ptr.row), .done⟩ rest := by
  subst hk'
  refine ⟨⟨nofun, fun _ => ?_, hcounted⟩, ?_, nofun⟩
  · show k.cached_row.isSome = true
    rw [hrow]
    rfl
  · rw [hledger, take_some, held_of_unlocked hread hwrite, ← add_assoc,
      ← locksOf_kind hlocal ptr, ← hrow]
    simp only [held, locks, setLockBits, hread, hwrite, Bool.false_or]
    rfl

theorem process_records {cxl_index : κ → Option ρ} {answer : PointAnswer ρ}
    {h : Handled (ReadKey κ ρ) ρ} (hk : k.Sound) (hidle : k.processed = false)
    (huncounted : k.reference_counted = false)
    (hprocess : k.process cxl_index answer (some (k.held + rest)) = some h) :
    h.Records Sound held Waiting rest := by
  obtain ⟨hread, hwrite⟩ := hk.idle hidle
  rw [held_of_idle hread hwrite huncounted, zero_add] at hprocess
  unfold process at hprocess
  split at hprocess
  · rename_i hlocal
    cases hprocess
    have hwrites : k.request.write_lock_request_bit = false := by
      cases hrequest : k.request <;> rw [hrequest] at hlocal <;> first | rfl | cases hlocal
    refine records_of_idle ?_ ?_ huncounted nofun
    · show (k.read_lock_bit || (k.request.read_lock_request_bit &&
        !k.request.local_index_read_bit)) = false
      rw [hread, hlocal, Bool.not_true, Bool.and_false, Bool.false_or]
    · show (k.write_lock_bit || k.request.write_lock_request_bit) = false
      rw [hwrite, hwrites, Bool.false_or]
  · rename_i hlocal
    replace hlocal := eq_false_of_ne_true hlocal
    have hsucceed : ∀ k' : ReadKey κ ρ, k'.request = k.request → k'.succeed answer.tid =
        { k'.setLockBits answer.tid k'.request.read_lock_request_bit
          k'.request.write_lock_request_bit with processed := true } := by
      intro k' hk'
      rw [succeed, hk', hlocal, Bool.not_false, Bool.and_true]
    split at hprocess
    · rename_i hmaster
      split at hprocess
      · rename_i row hrow
        split at hprocess
        · cases hprocess
          have hledger : some rest = some ((k.cacheLocal (some row)).held + rest) := by
            rw [held_of_idle (k := k.cacheLocal (some row)) hread hwrite huncounted, zero_add]
          refine records_setLockBits (k.cacheLocal (some row)) (.localRow row) hread hwrite
            hlocal (if_pos hmaster) (fun h => ?_) hledger answer.tid (hsucceed _ rfl)
          exact absurd (h.symm.trans huncounted) (by decide)
        · cases hprocess
          exact records_of_idle hread hwrite huncounted nofun
      · cases hprocess
    · rename_i hmaster
      split at hprocess
      · rename_i row hrow
        have hledger : take (.ref_cnt row) (some rest)
            = some ((k.cacheMigrated row).held + rest) := by
          rw [held_of_unlocked (k := k.cacheMigrated row) hread hwrite, take_some]
          rfl
        dsimp only at hprocess
        split at hprocess
        · cases hprocess
          exact records_setLockBits (k.cacheMigrated row) (.cxlRow row) hread hwrite hlocal
            (if_neg hmaster) (fun _ => rfl) hledger answer.tid (hsucceed _ rfl)
        · cases hprocess
          exact ⟨sound_of_unlocked hread hwrite fun _ => rfl, hledger, nofun⟩
      · cases hprocess
        exact records_of_idle hread hwrite huncounted fun _ =>
          ⟨rfl, eq_false_of_ne_true hmaster, hlocal, hread, hwrite, huncounted⟩

theorem response_records {cxl_index : κ → Option ρ} {moved_in : Bool} {answer : PointAnswer ρ}
    (hk : k.Sound) (hwaiting : k.Waiting) :
    (k.data_migration_response cxl_index moved_in answer (some (k.held + rest))).Records
      Sound held Waiting rest := by
  have hstay : Records Sound held Waiting ⟨k, some (k.held + rest), .failed⟩ rest :=
    ⟨hk, rfl, nofun⟩
  unfold data_migration_response
  split
  · exact hstay
  · split
    · rename_i row hrow
      split
      · refine records_setLockBits
          { k with cached_migrated_row := some row, reference_counted := true } (.cxlRow row)
          hwaiting.read_lock hwaiting.write_lock hwaiting.local_index
          (if_neg (Bool.eq_false_iff.mp hwaiting.remote)) (fun _ => rfl) ?_ answer.tid ?_
        · rw [held_of_idle hwaiting.read_lock hwaiting.write_lock hwaiting.uncounted, zero_add,
            held_of_unlocked (k := { k with
              cached_migrated_row := some row, reference_counted := true })
              hwaiting.read_lock hwaiting.write_lock, take_some]
          rfl
        · rw [← hwaiting.processed]
          rfl
      · exact hstay
    · exact hstay

end ReadKey

theorem foldl_unwind {κ ρ : Type} [DecidableEq ρ] {cxl_index : κ → Option ρ} (kind : LockKind)
    {ptrs : List (RowPtr ρ)} (hfits : ∀ ptr ∈ ptrs, ptr.fits true = true)
    (rest : Multiset (Resource ρ)) :
    (ScanKey.unwind κ kind ptrs).foldl (Call.apply cxl_index)
      (some (tuplesOf true kind ptrs + rest)) = some rest := by
  have h : Settles (Returns fun (_ : κ) (_ : ρ) => False) (ScanKey.unwind κ kind ptrs)
      (tuplesOf true kind ptrs) := settles_unwind kind hfits
  exact h.foldl rest fun call part held hcall =>
    apply_of_returns hcall (fun _ _ _ hfalse => hfalse.elim) held

namespace Walk

variable {ρ : Type} {remote : Bool} {kind : LockKind} {rest : Multiset (Resource ρ)} {w : Walk ρ}

-- What a walk has taken is in its results or is the next row.
structure Covers (remote : Bool) (kind : LockKind) (rest : Multiset (Resource ρ)) (w : Walk ρ) :
    Prop where
  ledger : w.ledger =
    some (tuplesOf remote kind (w.next_row_entity.toList ++ w.scan_results) + rest)
  next_fits : ∀ ptr ∈ w.next_row_entity, ptr.fits remote = true
  fits : ∀ ptr ∈ w.scan_results, ptr.fits remote = true

theorem covers_run (h : w.Covers remote kind rest) (hnext : w.next_row_entity = none)
    (visits : List (ScanVisit ρ)) : (w.run remote kind visits).Covers remote kind rest := by
  induction visits generalizing w with
  | nil => exact h
  | cons v visits ih =>
    have hledger := h.ledger
    rw [hnext, toList_none, nil_append] at hledger
    unfold run
    split
    · exact ⟨h.ledger, h.next_fits, h.fits⟩
    · split
      · dsimp only
        split
        · refine ⟨?_, fun ptr hptr => ?_, h.fits⟩
          · rw [hledger, lockTuple_some, toList_some, tuplesOf_append, add_assoc]
          · rw [← mem_some_iff.mp hptr]
            exact fits_to remote v.row
        · refine ih ⟨?_, ?_, fun ptr hptr => ?_⟩ hnext
          · rw [hledger, lockTuple_some, hnext, toList_none, nil_append,
              tuplesOf_append, ← add_assoc, add_comm (tuplesOf remote kind [_])]
          · rw [hnext]
            nofun
          · rcases mem_append.mp hptr with hptr | hptr
            · exact h.fits ptr hptr
            · rw [mem_singleton.mp hptr]
              exact fits_to remote v.row
      · exact ⟨h.ledger, h.next_fits, h.fits⟩

-- A walk that fails has no next row; one that succeeds has, unless it runs past the last
-- tuple.
theorem next_of_failed (hnext : w.next_row_entity = none) (visits : List (ScanVisit ρ)) :
    (w.run remote kind visits).scan_success = false →
      (w.run remote kind visits).next_row_entity = none := by
  induction visits generalizing w with
  | nil => exact fun _ => hnext
  | cons v visits ih =>
    unfold run
    split
    · exact fun _ => hnext
    · split
      · dsimp only
        split
        · nofun
        · exact ih hnext
      · exact fun _ => hnext

theorem next_of_succeeded (visits : List (ScanVisit ρ))
    (hstops : w.scan_success = true →
      ∃ v ∈ visits, v.locking_next_tuple = true ∨ v.success = false) :
    (w.run remote kind visits).scan_success = true →
      (w.run remote kind visits).next_row_entity.isSome = true := by
  induction visits generalizing w with
  | nil =>
    intro h
    obtain ⟨v, hv, -⟩ := hstops h
    cases hv
  | cons v visits ih =>
    unfold run
    split
    · nofun
    · split
      · rename_i hsuccess
        dsimp only
        split
        · exact fun _ => rfl
        · rename_i hnext
          refine ih fun h => ?_
          obtain ⟨v', hv', hstop⟩ := hstops h
          rcases mem_cons.mp hv' with rfl | hv'
          · rcases hstop with hstop | hstop
            · exact absurd hstop hnext
            · exact absurd (hsuccess.symm.trans hstop) (by decide)
          · exact ⟨v', hv', hstop⟩
      · nofun

theorem migration_of_run (visits : List (ScanVisit ρ)) (hmigration : w.migration_required = false) :
    (w.run remote kind visits).migration_required = true →
      remote = true ∧ (w.run remote kind visits).scan_success = false := by
  induction visits generalizing w with
  | nil =>
    intro h
    exact absurd (hmigration.symm.trans h) (by decide)
  | cons v visits ih =>
    unfold run
    split
    · rename_i hremote
      exact fun _ => ⟨(Bool.and_eq_true_iff.mp hremote).1, rfl⟩
    · split
      · dsimp only
        split
        · intro h
          exact absurd (hmigration.symm.trans h) (by decide)
        · exact ih hmigration
      · intro h
        exact absurd (hmigration.symm.trans h) (by decide)

end Walk

namespace ScanKey

variable {κ ρ : Type} {k : ScanKey ρ} {rest : Multiset (Resource ρ)} {w : Walk ρ}

theorem held_of_unlocked (k : ScanKey ρ) (hunlocked : k.is_next_row_locked = false) :
    k.held = tuplesOf (!k.has_master_partition) k.type.kind k.scan_results := by
  rw [held, tuples, hunlocked, flagged_false, nil_append]

theorem records_failed (hk : k.Sound) (hunlocked : k.is_next_row_locked = false)
    (hw : w.Covers (!k.has_master_partition) k.type.kind rest) (hnext : w.next_row_entity = none) :
    Records Sound held Waiting
      ⟨{ k with scan_results := w.scan_results }, w.ledger, .failed⟩ rest := by
  have hheld := held_of_unlocked { k with scan_results := w.scan_results } hunlocked
  refine ⟨⟨fun _ => hunlocked, hk.next, hk.next_fits, hw.fits, hk.replica⟩, ?_, nofun⟩
  rw [hw.ledger, hnext, hheld]
  rfl

theorem records_done (hk : k.Sound) (hw : w.Covers (!k.has_master_partition) k.type.kind rest)
    (hnext : w.next_row_entity.isSome = true) {k' : ScanKey ρ}
    (hk' : k' = { k with
      scan_results := w.scan_results
      next_row_entity := w.next_row_entity
      is_next_row_locked := true
      processed := true }) :
    Records Sound held Waiting ⟨k', w.ledger, .done⟩ rest := by
  subst hk'
  exact ⟨⟨nofun, fun _ => hnext, hw.next_fits, hw.fits, hk.replica⟩, hw.ledger, nofun⟩

variable {visits : List (ScanVisit ρ)}

theorem walk_spec (hk : k.Sound) (hunlocked : k.is_next_row_locked = false)
    (hstops : k.has_master_partition = true →
      ∃ v ∈ visits, v.locking_next_tuple = true ∨ v.success = false)
    (hw : k.walk visits (some (k.held + rest)) = w) :
    w.Covers (!k.has_master_partition) k.type.kind rest ∧
      (w.migration_required = true → k.has_master_partition = false ∧ w.scan_success = false) ∧
      (w.scan_success = false → w.next_row_entity = none) ∧
      (w.scan_success = true → w.next_row_entity.isSome = true) := by
  rw [walk, hk.replica, held_of_unlocked k hunlocked] at hw
  subst hw
  refine ⟨Walk.covers_run ⟨rfl, by nofun, hk.fits⟩ rfl visits, ?_, Walk.next_of_failed rfl visits,
    Walk.next_of_succeeded visits hstops⟩
  rw [← Bool.not_eq_true' k.has_master_partition]
  exact Walk.migration_of_run visits rfl

theorem process_records [DecidableEq ρ] {cxl_index : κ → Option ρ} (hk : k.Sound)
    (hidle : k.processed = false)
    (hstops : k.has_master_partition = true →
      ∃ v ∈ visits, v.locking_next_tuple = true ∨ v.success = false) :
    (k.process cxl_index visits (some (k.held + rest))).Records Sound held Waiting rest := by
  have hunlocked := hk.idle hidle
  unfold process
  generalize hwalk : k.walk visits (some (k.held + rest)) = w
  obtain ⟨hw, hmigration, hfailed, hsucceeded⟩ := walk_spec hk hunlocked hstops hwalk
  dsimp only
  split
  · rename_i hrequired
    obtain ⟨hmaster, hsuccess⟩ : k.has_master_partition = false ∧ w.scan_success = false := by
      rcases Bool.or_eq_true_iff.mp hrequired with h | h
      · exact hmigration h
      · rw [hk.replica] at h
        simp only [Bool.and_eq_true, Bool.not_eq_true'] at h
        exact ⟨h.1.1, h.2⟩
    have hfits := hw.fits
    have hledger := hw.ledger
    rw [hmaster] at hfits hledger
    rw [hfailed hsuccess, toList_none, nil_append] at hledger
    have hheld : ({ k with scan_results := [], processed := true } : ScanKey ρ).held = 0 := by
      rw [held_of_unlocked { k with scan_results := [], processed := true } hunlocked]
      exact tuplesOf_nil _ _
    refine ⟨⟨nofun, hk.next, hk.next_fits, by nofun, hk.replica⟩, ?_,
      fun _ => ⟨rfl, hmaster, hunlocked⟩⟩
    rw [hledger, hheld, zero_add]
    exact foldl_unwind k.type.kind hfits rest
  · split
    · rename_i hsuccess
      exact records_failed hk hunlocked hw (hfailed hsuccess)
    · rename_i hsuccess
      exact records_done hk hw (hsucceeded (Bool.eq_true_of_not_eq_false hsuccess)) rfl

theorem response_records (hk : k.Sound) (hwaiting : k.Waiting) :
    (k.data_migration_response_for_scan visits (some (k.held + rest))).Records
      Sound held Waiting rest := by
  unfold data_migration_response_for_scan
  generalize hwalk : Walk.run true k.type.kind _ visits = w
  have hwalk' : k.walk visits (some (k.held + rest)) = w := by
    rw [walk, hk.replica, hwaiting.remote]
    exact hwalk
  obtain ⟨hw, -, hfailed, hsucceeded⟩ := walk_spec hk hwaiting.unlocked
    (fun h => absurd (hwaiting.remote.symm.trans h) (by decide)) hwalk'
  dsimp only
  split
  · rename_i hsuccess
    refine records_done hk hw (hsucceeded hsuccess) ?_
    rw [← hwaiting.processed]
  · rename_i hsuccess
    exact records_failed hk hwaiting.unlocked hw (hfailed (eq_false_of_ne_true hsuccess))

end ScanKey

namespace InsertKey

variable {κ ρ : Type} {k : InsertKey κ ρ} {rest : Multiset (Resource ρ)}

theorem held_of_idle (hunlocked : k.is_next_row_locked = false)
    (huncounted : k.reference_counted = false) : k.held = 0 := by
  rw [held, locks, counts, hunlocked, huncounted, flagged_false, flagged_false, locksOf_nil,
    countsOf_nil, add_zero]

theorem held_succeed (hunlocked : k.is_next_row_locked = false)
    (huncounted : k.reference_counted = false) (next_row_entity : Option (RowPtr ρ)) :
    (k.succeed next_row_entity).held
      = locksOf .write (flagged k.require_lock_next_row next_row_entity) := by
  unfold succeed
  cases k.require_lock_next_row
  · exact held_of_idle hunlocked huncounted
  · simp only [if_true, held, locks, counts, huncounted, flagged_false, countsOf_nil, add_zero]

theorem sound_succeed (hk : k.Sound) {next_row_entity : Option (RowPtr ρ)}
    (hnext : k.require_lock_next_row = true → k.has_master_partition = true →
      next_row_entity.isSome = true)
    (hfits : ∀ ptr ∈ next_row_entity, ptr.fits false = true)
    (hremote : k.has_master_partition = false → next_row_entity = none) :
    (k.succeed next_row_entity).Sound := by
  unfold succeed
  split
  · rename_i hrequire
    exact ⟨nofun, fun hmaster _ => hnext hrequire hmaster, hfits, hremote, hk.counted, hk.replica⟩
  · exact ⟨nofun, hk.next, hk.next_fits, hk.no_next, hk.counted, hk.replica⟩

theorem process_records {answer : InsertAnswer ρ} {h : Handled (InsertKey κ ρ) ρ} (hk : k.Sound)
    (hidle : k.processed = false) (huncounted : k.reference_counted = false)
    (hprocess : k.process answer (some (k.held + rest)) = some h) :
    h.Records Sound held Waiting rest := by
  have hunlocked := hk.idle hidle
  have hstay : Records Sound held Waiting
      ⟨k, some (k.held + rest), .failed⟩ rest := ⟨hk, rfl, nofun⟩
  unfold process at hprocess
  split at hprocess
  · rename_i hlocal
    split at hprocess
    · cases hprocess
      exact hstay
    · split at hprocess
      · rename_i hrequire
        have hmaster : k.has_master_partition = true := (hk.replica hrequire).symm.trans hlocal
        split at hprocess
        · rename_i row hrow
          split at hprocess
          · cases hprocess
            refine ⟨sound_succeed hk (fun _ _ => rfl) ?_ fun h => ?_, ?_, nofun⟩
            · rintro ptr ⟨⟩
              rfl
            · exact absurd (hmaster.symm.trans h) (by decide)
            · rw [held_succeed hunlocked huncounted, hrequire, held_of_idle hunlocked huncounted,
                zero_add, take_some]
              rfl
          · cases hprocess
            exact hstay
        · cases hprocess
      · rename_i hrequire
        cases hprocess
        refine ⟨sound_succeed hk (fun h => absurd h hrequire) nofun fun _ => rfl, ?_, nofun⟩
        rw [held_succeed hunlocked huncounted, held_of_idle hunlocked huncounted, flagged_none,
          locksOf_nil]
  · rename_i hlocal
    cases hprocess
    refine ⟨sound_succeed hk (fun _ h => ?_) nofun fun _ => rfl, ?_, nofun⟩
    · rw [local_insert, h] at hlocal
      exact absurd rfl hlocal
    · rw [held_succeed hunlocked huncounted, held_of_idle hunlocked huncounted, flagged_none,
        locksOf_nil]

theorem process_frame {answer : InsertAnswer ρ} {ledger : Ledger (Resource ρ)}
    {h : Handled (InsertKey κ ρ) ρ} (hprocess : k.process answer ledger = some h) :
    h.entry.has_master_partition = k.has_master_partition ∧
      h.entry.reference_counted = k.reference_counted := by
  have hsucceed : ∀ next, (k.succeed next).has_master_partition = k.has_master_partition ∧
      (k.succeed next).reference_counted = k.reference_counted := by
    intro next
    unfold succeed
    split <;> exact ⟨rfl, rfl⟩
  unfold process at hprocess
  split at hprocess
  · split at hprocess
    · cases hprocess
      exact ⟨rfl, rfl⟩
    · split at hprocess
      · split at hprocess
        · split at hprocess
          · cases hprocess
            exact hsucceed _
          · cases hprocess
            exact ⟨rfl, rfl⟩
        · cases hprocess
      · cases hprocess
        exact hsucceed _
  · cases hprocess
    exact hsucceed _

theorem response_records {cxl_index : κ → Option ρ} {moved : Option ρ}
    {h : InsertKey κ ρ × Ledger (Resource ρ)} (hk : k.Sound)
    (hwaiting : k.Waiting) (hmoved : moved = cxl_index k.key)
    (hresponse : k.remote_insert_response cxl_index moved (some (k.held + rest)) = some h) :
    h.1.Sound ∧ h.2 = some (h.1.held + rest) := by
  obtain ⟨row, hrow, rfl⟩ := map_eq_some_iff.mp hresponse
  rw [hrow] at hmoved
  subst hmoved
  refine ⟨⟨hk.idle, hk.next, hk.next_fits, hk.no_next, fun _ => ⟨hwaiting.remote, rfl⟩,
    hk.replica⟩, ?_⟩
  have hheld : k.held = k.locks := by
    rw [held, counts, hwaiting.uncounted, flagged_false, countsOf_nil, add_zero]
  show take _ (some (k.held + rest)) = _
  rw [take_some, hheld, ← add_assoc, add_comm {Resource.ref_cnt row}]
  rfl

end InsertKey

end Tigon.TwoPLPasha
