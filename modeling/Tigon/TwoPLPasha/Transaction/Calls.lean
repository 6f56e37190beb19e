import Tigon.TwoPLPasha.Transaction
import Mathlib.Data.List.Flatten

namespace Tigon.TwoPLPasha

open List Transaction Call Tigon.Library

section Calls

variable {κ ρ : Type}

def Call.unlocks : Call κ ρ → Option ρ
  | .lock_release _ .write (some ptr) _ => some ptr.row
  | _ => none

def Call.installs : Call κ ρ → Option (ρ × Word)
  | .lock_release _ _ (some ptr) (some value) => some (ptr.row, value)
  | _ => none

theorem ReadKey.unlocks_releases (k : ReadKey κ ρ) (version version' : Option Word) :
    (k.releases version).filterMap unlocks = (k.releases version').filterMap unlocks := by
  unfold ReadKey.releases
  cases k.read_lock_bit <;> cases k.write_lock_bit <;> cases k.cached_row <;> rfl

def Transaction.written (txn : Transaction κ ρ) : List ρ :=
  txn.readSet.flatMap (fun k => k.abort.filterMap unlocks) ++
  txn.insertSet.flatMap (fun k => (k.release_lock 0).filterMap unlocks) ++
  txn.scanSet.flatMap (fun k => (k.abort : List (Call κ ρ)).filterMap unlocks)

variable {call : Call κ ρ}

theorem quiet_release_migrated_rows {txn : Transaction κ ρ}
    (hcall : call ∈ txn.release_migrated_rows) : call.unlocks = none ∧ call.installs = none := by
  simp only [release_migrated_rows, mem_append, mem_flatMap] at hcall
  rcases hcall with (⟨k, -, hk⟩ | ⟨k, -, hk⟩) | ⟨k, -, hk⟩
  · rw [ReadKey.release_migrated_rows] at hk
    split at hk
    · rw [mem_singleton.mp hk]
      exact ⟨rfl, rfl⟩
    · cases hk
  · rw [InsertKey.release_migrated_rows] at hk
    split at hk
    · split at hk
      · rw [mem_singleton.mp hk]
        exact ⟨rfl, rfl⟩
      · rw [mem_singleton.mp hk]
        exact ⟨rfl, rfl⟩
    · cases hk
  · rw [ScanKey.release_migrated_rows] at hk
    split at hk
    · rcases mem_append.mp hk with hk | hk
      · split at hk
        · rw [mem_singleton.mp hk]
          exact ⟨rfl, rfl⟩
        · cases hk
      · split at hk
        · cases hk
        · obtain ⟨ptr, -, rfl⟩ := mem_map.mp hk
          exact ⟨rfl, rfl⟩
    · cases hk

theorem unlocks_release_migrated_rows (txn : Transaction κ ρ) :
    txn.release_migrated_rows.filterMap unlocks = [] := by
  rw [filterMap_eq_nil_iff]
  exact fun call hcall => (quiet_release_migrated_rows hcall).1

theorem unlocks_release_lock (txn : Transaction κ ρ) (commit_tid epoch : Word) :
    ((txn.release_lock commit_tid epoch).filterMap unlocks).Sublist txn.written := by
  simp only [release_lock, written, filterMap_append,
    filterMap_flatMap]
  have hreads : txn.readSet.flatMap (fun k => (k.release_lock epoch).filterMap unlocks)
      = txn.readSet.flatMap fun k => k.abort.filterMap unlocks :=
    flatMap_congr fun k _ => k.unlocks_releases _ _
  have hinserts : txn.insertSet.flatMap (fun k => (k.release_lock commit_tid).filterMap unlocks)
      = txn.insertSet.flatMap fun k => (k.release_lock 0).filterMap unlocks := by
    refine flatMap_congr fun k _ => ?_
    unfold InsertKey.release_lock
    cases k.is_next_row_locked <;> cases k.next_row_entity <;> rfl
  rw [hreads, hinserts]
  refine (List.Sublist.refl _).append (List.Sublist.flatMap_right _ fun k _ => ?_)
  unfold ScanKey.release_lock ScanKey.abort
  split
  · simp
  · exact List.Sublist.refl _

theorem unlocks_abort (txn : Transaction κ ρ) :
    (txn.abort.filterMap unlocks).Subperm txn.written := by
  simp only [abort, abortLocks, written,
    filterMap_append, filterMap_flatMap, unlocks_release_migrated_rows,
    append_nil]
  refine (subperm_append_right _).mpr ?_
  have hinsert : (txn.insertSet.flatMap fun k => k.abort.filterMap unlocks).Sublist
      (txn.insertSet.flatMap fun k => (k.release_lock 0).filterMap unlocks) := by
    refine List.Sublist.flatMap_right _ fun k _ => ?_
    unfold InsertKey.abort InsertKey.release_lock
    split
    · cases k.is_next_row_locked <;> cases k.next_row_entity <;> exact List.Sublist.refl _
    · exact nil_sublist _
  exact (hinsert.append (List.Sublist.refl _)).subperm.trans perm_append_comm.subperm

theorem ReadKey.installs_releases {k : ReadKey κ ρ} {version : Option Word} {row : ρ} {value : Word}
    (h : call ∈ k.releases version) (hi : call.installs = some (row, value)) :
    call.unlocks = some row ∧ version = some value ∧ k.write_lock_bit = true ∧
      ∃ ptr ∈ k.cached_row, ptr.row = row := by
  rw [ReadKey.releases, mem_append] at h
  rcases h with h | h
  · split at h
    · rw [mem_singleton.mp h] at hi
      cases hrow : k.cached_row <;> simp [installs, hrow] at hi
    · cases h
  · split at h
    · rename_i hbit
      rw [mem_singleton.mp h] at hi ⊢
      cases hrow : k.cached_row with
      | none => simp [installs, hrow] at hi
      | some ptr =>
        cases version with
        | none => simp [installs, hrow] at hi
        | some v =>
          simp only [installs, hrow, Option.some.injEq, Prod.mk.injEq] at hi
          exact ⟨by rw [← hi.1]; rfl, by rw [hi.2], hbit, ptr, rfl, hi.1⟩
    · cases h

theorem InsertKey.installs_release_lock {k : InsertKey κ ρ} {commit_tid : Word} {row : ρ}
    {value : Word} (h : call ∈ k.release_lock commit_tid) (hi : call.installs = some (row, value)) :
    call.unlocks = some row ∧ value = commit_tid ∧ k.is_next_row_locked = true ∧
      ∃ ptr ∈ k.next_row_entity, ptr.row = row := by
  rw [InsertKey.release_lock] at h
  split at h
  · rename_i hlocked
    rw [mem_singleton.mp h] at hi ⊢
    cases hrow : k.next_row_entity with
    | none => simp [installs, hrow] at hi
    | some ptr =>
      simp only [installs, hrow, Option.some.injEq, Prod.mk.injEq] at hi
      exact ⟨by rw [← hi.1]; rfl, hi.2.symm, hlocked, ptr, rfl, hi.1⟩
  · cases h

variable {k : ScanKey ρ}

theorem ScanKey.installs_abort (h : call ∈ k.abort) : call.installs = none := by
  rw [ScanKey.abort, mem_append] at h
  rcases h with h | h
  · rw [ScanKey.releaseNext] at h
    split at h
    · rw [mem_singleton.mp h]
      cases k.next_row_entity <;> rfl
    · cases h
  · obtain ⟨ptr, -, rfl⟩ := mem_map.mp h
    rfl

theorem ScanKey.installs_release_lock (h : call ∈ k.release_lock) : call.installs = none := by
  apply ScanKey.installs_abort (k := k)
  rw [ScanKey.release_lock, mem_append] at h
  rw [ScanKey.abort, mem_append]
  rcases h with h | h
  · exact .inl h
  · split at h
    · cases h
    · exact .inr h

theorem Transaction.installs_abort {txn : Transaction κ ρ} (h : call ∈ txn.abort) :
    call.installs = none := by
  simp only [abort, abortLocks, mem_append, mem_flatMap] at h
  rcases h with ((⟨k, -, h⟩ | ⟨k, -, h⟩) | ⟨k, -, h⟩) | h
  · unfold InsertKey.abort at h
    split at h
    · rcases mem_cons.mp h with rfl | h
      · rfl
      · split at h
        · rw [mem_singleton.mp h]
          cases k.next_row_entity <;> rfl
        · cases h
    · cases h
  · cases hi : call.installs with
    | none => rfl
    | some x => exact absurd (ReadKey.installs_releases h hi).2.1 (by simp)
  · exact ScanKey.installs_abort h
  · exact (quiet_release_migrated_rows h).2

theorem Transaction.written_read (txn : Transaction κ ρ) (k : ReadKey κ ρ) :
    ({ txn with readSet := txn.readSet ++ [k] } : Transaction κ ρ).written.Perm
      (k.abort.filterMap unlocks ++ txn.written) := by
  simp only [written, flatMap_append, flatMap_singleton]
  refine (perm_append_comm.append_right _ |>.append_right _).trans ?_
  simp only [append_assoc]
  exact List.Perm.refl _

theorem Transaction.written_insert (txn : Transaction κ ρ) (k : InsertKey κ ρ) :
    ({ txn with insertSet := txn.insertSet ++ [k] } : Transaction κ ρ).written.Perm
      ((k.release_lock 0).filterMap unlocks ++ txn.written) := by
  simp only [written, flatMap_append, flatMap_singleton]
  simp only [append_assoc]
  exact ((perm_append_comm_assoc ..).append_left _).trans (perm_append_comm_assoc ..)

theorem Transaction.written_scan (txn : Transaction κ ρ) (k : ScanKey ρ)
    (scanSet : List (ScanKey ρ)) :
    ({ txn with scanSet := k :: scanSet } : Transaction κ ρ).written.Perm
      ((k.abort : List (Call κ ρ)).filterMap unlocks ++
        ({ txn with scanSet := scanSet } : Transaction κ ρ).written) := by
  simp only [written, flatMap_cons, append_assoc]
  exact ((perm_append_comm_assoc ..).append_left _).trans (perm_append_comm_assoc ..)

variable (κ)

theorem ScanKey.unlocks_next (ptr : RowPtr ρ) (hnext : k.is_next_row_locked = false) :
    ({ k with next_row_entity := some ptr, is_next_row_locked := true }.abort :
      List (Call κ ρ)).filterMap unlocks
      = (if k.type.kind = .write then some ptr.row else none).toList ++
        (k.abort : List (Call κ ρ)).filterMap unlocks := by
  simp only [ScanKey.abort, ScanKey.releaseNext, ScanKey.releaseResults, hnext,
    filterMap_append]
  cases k.type.kind <;> rfl

theorem ScanKey.unlocks_result (k : ScanKey ρ) (ptr : RowPtr ρ) :
    (({ k with scan_results := k.scan_results ++ [ptr] }.abort :
      List (Call κ ρ)).filterMap unlocks).Perm
      ((if k.type.kind = .write then some ptr.row else none).toList ++
        (k.abort : List (Call κ ρ)).filterMap unlocks) := by
  simp only [ScanKey.abort, ScanKey.releaseNext, ScanKey.releaseResults, map_append,
    filterMap_append, ← append_assoc]
  refine perm_append_comm.trans (List.Perm.of_eq ?_)
  cases k.type.kind <;> simp [unlocks]

end Calls

end Tigon.TwoPLPasha
