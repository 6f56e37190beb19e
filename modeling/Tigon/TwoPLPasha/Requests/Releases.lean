import Tigon.TwoPLPasha.Requests.Holdings

namespace Tigon.TwoPLPasha

open List Option InsertKey Tigon.Library Settles

section Entries

variable {κ ρ : Type} {counted : κ → ρ → Prop}

namespace ReadKey

variable {k : ReadKey κ ρ}

theorem fits_cached_row : ∀ ptr ∈ k.cached_row, ptr.fits (!k.has_master_partition) = true := by
  intro ptr hptr
  rw [cached_row] at hptr
  split at hptr
  · rename_i hmaster
    obtain ⟨row, -, rfl⟩ := map_eq_some_iff.mp hptr
    rw [hmaster]
    rfl
  · rename_i hmaster
    obtain ⟨row, -, rfl⟩ := map_eq_some_iff.mp hptr
    rw [eq_false_of_ne_true hmaster]
    rfl

theorem settles_releases (hk : k.Sound) (new_value : Option Word) :
    Settles (Returns counted) (k.releases new_value) k.locks :=
  (settles_flagged_lock_release .read none (fun h => hk.locked (.inl h)) fits_cached_row).append
    (settles_flagged_lock_release .write new_value (fun h => hk.locked (.inr h)) fits_cached_row)

theorem settles_release_migrated_rows
    (hcounted : ∀ row, k.reference_counted = true → k.cached_migrated_row = some row →
      counted k.key row) (hk : k.Sound) :
    Settles (Returns counted) k.release_migrated_rows k.counts := by
  unfold release_migrated_rows counts
  split
  · rename_i hflag
    obtain ⟨row, hrow⟩ := isSome_iff_exists.mp (hk.counted hflag)
    rw [hflag, hrow]
    exact .cons (Returns.release_migrated_row (hcounted row hflag hrow)) .nil
  · rename_i hflag
    rw [eq_false_of_ne_true hflag]
    exact .nil

end ReadKey

namespace InsertKey

variable {k : InsertKey κ ρ}

theorem settles_next (hk : k.Sound) (hmaster : k.has_master_partition = true)
    (new_value : Option Word) :
    Settles (Returns counted)
      (if k.is_next_row_locked then [.lock_release false .write k.next_row_entity new_value]
        else []) k.locks :=
  settles_flagged_lock_release .write new_value (hk.next hmaster) hk.next_fits

theorem settles_release_lock (hk : k.Sound)
    (hlocal : k.is_next_row_locked = true → k.has_master_partition = true) (commit_tid : Word) :
    Settles (Returns counted) (k.release_lock commit_tid) k.locks := by
  unfold release_lock
  cases hmaster : k.has_master_partition with
  | true => exact settles_next hk hmaster _
  | false =>
    have hunlocked : k.is_next_row_locked = false := by
      refine eq_false_of_ne_true fun h => ?_
      exact absurd (hmaster.symm.trans (hlocal h)) (by decide)
    rw [locks, hunlocked]
    exact .nil

theorem settles_abort (hk : k.Sound) : Settles (Returns counted) k.abort k.locks := by
  unfold abort
  split
  · rename_i h
    rw [← zero_add k.locks]
    exact .cons .remove (settles_next hk (Bool.and_eq_true_iff.mp h).2 none)
  · rename_i h
    have hlocks : k.locks = 0 := by
      unfold locks
      cases hprocessed : k.processed with
      | false => rw [hk.idle hprocessed, flagged_false, locksOf_nil]
      | true =>
        rw [hprocessed, Bool.true_and] at h
        rw [hk.no_next (eq_false_of_ne_true h), flagged_none, locksOf_nil]
    rw [hlocks]
    exact .nil

theorem settles_release_migrated_rows (hk : k.Sound) :
    Settles (Returns counted) k.release_migrated_rows k.counts := by
  unfold release_migrated_rows counts
  split
  · rename_i hflag
    obtain ⟨hremote, hsome⟩ := hk.counted hflag
    obtain ⟨row, hrow⟩ := isSome_iff_exists.mp hsome
    rw [if_neg (Bool.eq_false_iff.mp hremote), hflag, hrow]
    exact .cons (Returns.decrease_reference_count_via_ptr rfl) .nil
  · rename_i hflag
    rw [eq_false_of_ne_true hflag]
    exact .nil

end InsertKey

namespace ScanKey

variable {k : ScanKey ρ}

def kept (k : ScanKey ρ) : List (RowPtr ρ) :=
  flagged k.is_next_row_locked k.next_row_entity ++
    if k.type = .SCAN_FOR_DELETE then [] else k.scan_results

def dropped (k : ScanKey ρ) : List (RowPtr ρ) :=
  if k.type = .SCAN_FOR_DELETE then k.scan_results else []

def countsKept (k : ScanKey ρ) : Multiset (Resource ρ) :=
  if k.has_master_partition then 0 else countsOf k.kept

theorem settles_releaseNext (hk : k.Sound) :
    Settles (Returns counted) k.releaseNext
      (locksOf k.type.kind (flagged k.is_next_row_locked k.next_row_entity)) :=
  settles_flagged_lock_release _ none hk.next hk.next_fits

theorem settles_abort (hk : k.Sound) :
    Settles (Returns counted) k.abort (locksOf k.type.kind k.tuples) := by
  rw [tuples, locksOf_append]
  exact (settles_releaseNext hk).append (settles_lock_release _ none hk.fits)

theorem settles_release_lock (hk : k.Sound) :
    Settles (Returns counted) k.release_lock (locksOf k.type.kind k.kept) := by
  rw [kept, locksOf_append]
  refine (settles_releaseNext hk).append ?_
  split
  · exact .nil
  · exact settles_lock_release _ none hk.fits

theorem settles_release_migrated_rows (hk : k.Sound) :
    Settles (Returns counted) k.release_migrated_rows k.countsKept := by
  unfold release_migrated_rows countsKept
  cases hmaster : k.has_master_partition with
  | true => exact .nil
  | false =>
    rw [if_pos rfl, if_neg Bool.false_ne_true, kept, countsOf_append]
    have hfits := hk.fits
    have hnext := hk.next_fits
    rw [hmaster] at hfits hnext
    refine (settles_flagged_decrease hk.next hnext).append ?_
    split
    · exact .nil
    · exact settles_decrease hfits

theorem held_eq (k : ScanKey ρ) :
    k.held = locksOf k.type.kind k.kept + k.countsKept +
      tuplesOf (!k.has_master_partition) k.type.kind k.dropped := by
  have hkept : locksOf k.type.kind k.kept + k.countsKept
      = tuplesOf (!k.has_master_partition) k.type.kind k.kept := by
    unfold tuplesOf countsKept
    cases k.has_master_partition <;> rfl
  have htuples : k.tuples = k.kept ++ k.dropped := by
    unfold tuples kept dropped
    split
    · rw [append_nil]
    · rw [append_nil]
  rw [hkept, ← tuplesOf_append, ← htuples]
  rfl

-- An abort gives everything back unless it leaves counts of rows it was to delete.
theorem held_eq_of_abort (k : ScanKey ρ)
    (h : k.has_master_partition = false → k.type = .SCAN_FOR_DELETE → k.scan_results = []) :
    k.held = locksOf k.type.kind k.tuples + k.countsKept := by
  unfold held tuplesOf countsKept
  cases hmaster : k.has_master_partition with
  | true => rfl
  | false =>
    have htuples : k.kept = k.tuples := by
      unfold kept tuples
      split
      · rename_i htype
        rw [h hmaster htype]
      · rfl
    rw [htuples]
    rfl

end ScanKey

end Entries

namespace Transaction

variable {κ ρ : Type} {txn : Transaction κ ρ}

def held (txn : Transaction κ ρ) : Multiset (Resource ρ) :=
  (txn.readSet.map ReadKey.held).sum + (txn.insertSet.map InsertKey.held).sum +
  (txn.scanSet.map ScanKey.held).sum

structure Sound (txn : Transaction κ ρ) : Prop where
  reads : ∀ k ∈ txn.readSet, k.Sound
  inserts : ∀ k ∈ txn.insertSet, k.Sound
  scans : ∀ k ∈ txn.scanSet, k.Sound

def Counted (txn : Transaction κ ρ) (key : κ) (row : ρ) : Prop :=
  ∃ k ∈ txn.readSet, k.key = key ∧ k.reference_counted = true ∧ k.cached_migrated_row = some row

theorem settles_release_migrated_rows (h : txn.Sound) :
    Settles (Returns txn.Counted) txn.release_migrated_rows
      ((txn.readSet.map ReadKey.counts).sum + (txn.insertSet.map counts).sum +
        (txn.scanSet.map ScanKey.countsKept).sum) := by
  have hreads : Settles (Returns txn.Counted)
      (txn.readSet.flatMap ReadKey.release_migrated_rows)
      (txn.readSet.map ReadKey.counts).sum :=
    flatMap fun k hk => ReadKey.settles_release_migrated_rows
      (fun row hcounted hrow => ⟨k, hk, rfl, hcounted, hrow⟩) (h.reads k hk)
  have hinserts : Settles (Returns txn.Counted)
      (txn.insertSet.flatMap InsertKey.release_migrated_rows)
      (txn.insertSet.map InsertKey.counts).sum :=
    flatMap fun k hk => InsertKey.settles_release_migrated_rows (h.inserts k hk)
  have hscans : Settles (Returns txn.Counted)
      (txn.scanSet.flatMap ScanKey.release_migrated_rows)
      (txn.scanSet.map ScanKey.countsKept).sum :=
    flatMap fun k hk => ScanKey.settles_release_migrated_rows (h.scans k hk)
  exact (hreads.append hinserts).append hscans

theorem settles_abort (h : txn.Sound)
    (hdelete : ∀ k ∈ txn.scanSet, k.has_master_partition = false → k.type = .SCAN_FOR_DELETE →
      k.scan_results = []) :
    Settles (Returns txn.Counted) txn.abort txn.held := by
  have hlocks : Settles (Returns txn.Counted) txn.abortLocks
      ((txn.insertSet.map locks).sum + (txn.readSet.map ReadKey.locks).sum +
        (txn.scanSet.map fun k => locksOf k.type.kind k.tuples).sum) := by
    refine ((flatMap fun k hk => ?_).append (flatMap fun k hk => ?_)).append
      (flatMap fun k hk => ?_)
    · exact InsertKey.settles_abort (h.inserts k hk)
    · exact ReadKey.settles_releases (h.reads k hk) none
    · exact ScanKey.settles_abort (h.scans k hk)
  have hscans : (txn.scanSet.map ScanKey.held).sum
      = (txn.scanSet.map fun k => locksOf k.type.kind k.tuples).sum +
        (txn.scanSet.map ScanKey.countsKept).sum := by
    rw [← sum_map_add]
    exact congrArg List.sum (map_congr_left fun k hk => k.held_eq_of_abort (hdelete k hk))
  have hheld : txn.held = (txn.insertSet.map locks).sum +
      (txn.readSet.map ReadKey.locks).sum +
      (txn.scanSet.map fun k => locksOf k.type.kind k.tuples).sum +
      ((txn.readSet.map ReadKey.counts).sum + (txn.insertSet.map counts).sum +
        (txn.scanSet.map ScanKey.countsKept).sum) := by
    unfold held ReadKey.held InsertKey.held
    rw [hscans, sum_map_add, sum_map_add]
    ac_rfl
  rw [hheld]
  exact hlocks.append (settles_release_migrated_rows h)

theorem settles_commit (h : txn.Sound)
    (hlocal : ∀ k ∈ txn.insertSet, k.is_next_row_locked = true → k.has_master_partition = true)
    (commit_tid cur_global_epoch : Word) :
    ∃ owed, Settles (Returns txn.Counted)
        (txn.release_lock commit_tid cur_global_epoch ++ txn.release_migrated_rows) owed ∧
      txn.held = owed + (txn.scanSet.map fun k =>
        tuplesOf (!k.has_master_partition) k.type.kind k.dropped).sum := by
  have hlocks : Settles (Returns txn.Counted) (txn.release_lock commit_tid cur_global_epoch)
      ((txn.readSet.map ReadKey.locks).sum + (txn.insertSet.map locks).sum +
        (txn.scanSet.map fun k => locksOf k.type.kind k.kept).sum) := by
    refine ((flatMap fun k hk => ?_).append (flatMap fun k hk => ?_)).append
      (flatMap fun k hk => ?_)
    · exact ReadKey.settles_releases (h.reads k hk) _
    · exact settles_release_lock (h.inserts k hk) (hlocal k hk) commit_tid
    · exact ScanKey.settles_release_lock (h.scans k hk)
  refine ⟨_, hlocks.append (settles_release_migrated_rows h), ?_⟩
  have hscans : (txn.scanSet.map ScanKey.held).sum
      = (txn.scanSet.map fun k => locksOf k.type.kind k.kept).sum +
        (txn.scanSet.map ScanKey.countsKept).sum +
        (txn.scanSet.map fun k =>
          tuplesOf (!k.has_master_partition) k.type.kind k.dropped).sum := by
    rw [← sum_map_add, ← sum_map_add]
    exact congrArg List.sum (map_congr_left fun k _ => k.held_eq)
  unfold held ReadKey.held InsertKey.held
  rw [hscans, sum_map_add, sum_map_add]
  ac_rfl

end Transaction

end Tigon.TwoPLPasha
