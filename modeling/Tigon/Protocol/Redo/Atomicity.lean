import Mathlib.Algebra.BigOperators.Fin
import Tigon.Library.Transition
import Tigon.Protocol.Redo

namespace Tigon.Protocol

open List Redo LogType

namespace RedoTransaction

variable {kind : Kind} {p : Partitioner} {txn : RedoTransaction}

theorem elements_redo {n : Nat} (i : Fin n) (log_type : LogType) (keys : List RWKey) :
    (redo i log_type keys).map element = keys.map (log_type, ·) := by
  simp [redo, element]

def total (p : Partitioner) (txn : RedoTransaction) (st : Progress p.coordinator_num) :
    List (LogType × RWKey) :=
  st.log.map element ++
    st.asked.flatMap fun i => (txn.writeSetGroup p i).map (write, ·)

theorem total_askCoordinator (kind : Kind) (txn : RedoTransaction)
    (st : Progress p.coordinator_num) (i : Fin p.coordinator_num) :
    (st.abort_read_validation = true ∧ txn.askCoordinator kind p st i = st) ∨
    (st.abort_read_validation = false ∧ (total p txn (txn.askCoordinator kind p st i)).Perm
      (total p txn st ++ (txn.writeSetGroup p i).map (write, ·))) := by
  unfold askCoordinator
  split
  · rename_i habort
    exact .inl ⟨habort, rfl⟩
  · rename_i habort
    refine .inr ⟨by simpa using habort, ?_⟩
    split
    · simp only [total, map_append, elements_redo, append_assoc]
      exact List.Perm.append_left _ perm_append_comm
    · split
      · rename_i hempty
        have hnil : txn.writeSetGroup p i = [] :=
          isEmpty_iff.mp ((Bool.and_eq_true _ _).mp hempty).2
        simp [hnil]
      · simp [total]

theorem total_foldl_askCoordinator (kind : Kind) (txn : RedoTransaction)
    (l : List (Fin p.coordinator_num))
    (st : Progress p.coordinator_num) :
    ∃ l', l'.Sublist l ∧ (total p txn (l.foldl (txn.askCoordinator kind p) st)).Perm
        (total p txn st ++ l'.flatMap fun i => (txn.writeSetGroup p i).map (write, ·)) ∧
      ((l.foldl (txn.askCoordinator kind p) st).abort_read_validation = false → l' = l ∧
        st.abort_read_validation = false) := by
  induction l generalizing st with
  | nil => exact ⟨[], .slnil, by simp, fun h => ⟨rfl, h⟩⟩
  | cons i l ih =>
    obtain ⟨l', hsub, hperm, hall⟩ := ih (txn.askCoordinator kind p st i)
    rcases total_askCoordinator kind txn st i with ⟨habort, hst⟩ | ⟨habort, hst⟩
    · refine ⟨l', hsub.cons i, ?_, fun h => ?_⟩
      · rw [hst] at hperm
        rw [foldl_cons, hst]
        exact hperm
      · have hfalse := (hall h).2
        rw [hst, habort] at hfalse
        cases hfalse
    · refine ⟨i :: l', hsub.cons_cons i, ?_, fun h => ⟨?_, habort⟩⟩
      · refine hperm.trans ?_
        rw [flatMap_cons, ← append_assoc]
        exact hst.append_right _
      · rw [(hall h).1]

theorem foldl_answer (kind : Kind) (txn : RedoTransaction) (l : List (Fin p.coordinator_num))
    (st : Progress p.coordinator_num) :
    (l.foldl (txn.answer kind p) st).log.map element
        = st.log.map element
          ++ (l.flatMap fun i => (txn.writeSetGroup p i).map (write, ·)) ∧
      ((l.foldl (txn.answer kind p) st).abort_read_validation = false →
        st.abort_read_validation = false) := by
  induction l generalizing st with
  | nil => exact ⟨by simp, id⟩
  | cons i l ih =>
    obtain ⟨hlog, habort⟩ := ih (txn.answer kind p st i)
    refine ⟨?_, fun h => ?_⟩
    · rw [foldl_cons, hlog]
      simp [answer, elements_redo]
    · have hor := habort h
      simp only [answer, Bool.or_eq_false_iff] at hor
      exact hor.1

theorem perm_groups {n : Nat} {α : Type} [DecidableEq α] (f : α → Fin n) (l : List α) :
    ((List.finRange n).flatMap fun i => l.filter fun a => f a = i).Perm l := by
  refine perm_iff_count.mpr fun a => ?_
  have hcount : ∀ i, (List.count a ∘ fun i => l.filter fun a => f a = i) i
      = if f a = i then l.count a else 0 := by
    intro i
    split
    · rename_i hi
      exact count_filter (by simpa using hi)
    · rename_i hi
      exact count_eq_zero.mpr fun hmem => hi (by simpa using (mem_filter.mp hmem).2)
  rw [count_flatMap, map_congr_left (fun i _ => hcount i), ← Fin.sum_univ_def]
  exact Finset.sum_ite_eq Finset.univ (f a) _ |>.trans (if_pos (Finset.mem_univ _))

theorem perm_writes (p : Partitioner) (txn : RedoTransaction) :
    ((List.finRange p.coordinator_num).flatMap
      fun i => (txn.writeSetGroup p i).map (write, ·)).Perm txn.writes := by
  have hmap : ((List.finRange p.coordinator_num).flatMap
      fun i => (txn.writeSetGroup p i).map (write, ·))
      = ((List.finRange p.coordinator_num).flatMap (txn.writeSetGroup p)).map
        (write, ·) := by
    rw [map_flatMap]
  rw [hmap]
  exact (perm_groups _ _).map _

theorem sync_spec (kind : Kind) (p : Partitioner) (txn : RedoTransaction) :
    ((txn.sync kind p).log.map element).Subperm txn.writes ∧
    ((txn.sync kind p).abort_read_validation = false →
      ((txn.sync kind p).log.map element).Perm txn.writes) := by
  obtain ⟨hlog, habort⟩ := foldl_answer kind txn (txn.prepare kind p).asked (txn.prepare kind p)
  obtain ⟨l', hsub, hperm, hall⟩ := total_foldl_askCoordinator kind txn
    (List.finRange p.coordinator_num) ⟨[], false, []⟩
  have htotal : (txn.sync kind p).log.map element = total p txn (txn.prepare kind p) := hlog
  have hnil : total p txn ⟨[], false, []⟩ = [] := rfl
  rw [hnil, nil_append] at hperm
  rw [htotal]
  refine ⟨?_, fun h => ?_⟩
  · exact (hperm.subperm.trans (hsub.flatMap _).subperm).trans (perm_writes p txn).subperm
  · rw [(hall (habort h)).1] at hperm
    exact hperm.trans (perm_writes p txn)

theorem foldl_validateCoordinator (txn : RedoTransaction) (l : List (Fin p.coordinator_num))
    (st : Progress p.coordinator_num)
    (h : (l.foldl (txn.validateCoordinator p) st).abort_read_validation = false) :
    st.abort_read_validation = false ∧
    ((l.foldl (txn.validateCoordinator p) st).log.filter (·.log_type = .write)).map element
      = (st.log.filter (·.log_type = .write)).map element
        ++ l.flatMap fun i => (txn.writeSetGroup p i).map (write, ·) := by
  induction l generalizing st with
  | nil => exact ⟨h, by simp⟩
  | cons i l ih =>
    obtain ⟨habort, hlog⟩ := ih (txn.validateCoordinator p st i) h
    rw [foldl_cons, hlog]
    unfold validateCoordinator at habort ⊢
    split at habort
    · rename_i hst
      rw [hst] at habort
      cases habort
    · rename_i hst
      rw [if_neg hst]
      split at habort
      · rename_i hvalid
        rw [if_pos hvalid]
        refine ⟨by simpa using hst, ?_⟩
        simp [insertsAndDeletes, redo, element, filter_map, Function.comp_def]
      · cases habort

theorem single_of_committed (kind : Kind) (p : Partitioner) (txn : RedoTransaction)
    (hlock : txn.abort_lock = false) (h : (txn.validateSingle kind p).committed = true) :
    (txn.validateSingle kind p).log.map element = txn.expected kind := by
  cases kind with
  | Silo => exact elements_redo _ _ _
  | Sundial =>
    have hvalid : validated (txn.readsToValidate .Sundial) = true := h
    simp [validateSingle, hlock, hvalid, insertsAndDeletes, elements_redo, expected, elements,
      writes]
  | SundialPasha =>
    have hvalid : validated (txn.readsToValidate .SundialPasha) = true := h
    simp [validateSingle, hlock, hvalid, insertsAndDeletes, elements_redo, expected, elements,
      writes]

theorem single_of_aborted (kind : Kind) (p : Partitioner) (txn : RedoTransaction)
    (hkind : kind ≠ .Silo) (h : (txn.validateSingle kind p).committed = false) :
    (txn.validateSingle kind p).log = [] := by
  cases kind with
  | Silo => exact absurd rfl hkind
  | Sundial =>
    have hinvalid : validated (txn.readsToValidate .Sundial) = false := h
    simp [validateSingle, hinvalid]
  | SundialPasha =>
    have hinvalid : validated (txn.readsToValidate .SundialPasha) = false := h
    simp [validateSingle, hinvalid]

theorem multi_of_committed (kind : Kind) (p : Partitioner) (txn : RedoTransaction)
    (hkind : kind ≠ .SundialPasha) (h : (txn.validateMulti kind p).committed = true) :
    ((txn.validateMulti kind p).log.map element).Perm (txn.expected kind) := by
  cases kind with
  | Silo =>
    have hvalid : (txn.sync .Silo p).abort_read_validation = false := by
      simpa [validateMulti] using h
    exact (sync_spec .Silo p txn).2 hvalid
  | Sundial =>
    have hvalid : (txn.sync .Sundial p).abort_read_validation = false := by
      simpa [validateMulti] using h
    have hperm := (sync_spec .Sundial p txn).2 hvalid
    have hlog : (txn.validateMulti .Sundial p).log
        = (txn.sync .Sundial p).log ++ txn.insertsAndDeletes p := by
      simp [validateMulti, hvalid]
    rw [hlog, map_append]
    simpa [insertsAndDeletes, elements_redo, expected, elements] using hperm.append_right
      (txn.insertSet.map (insert, ·) ++ txn.deleteSet.map (delete, ·))
  | SundialPasha => exact absurd rfl hkind

theorem multi_of_aborted (kind : Kind) (p : Partitioner) (txn : RedoTransaction)
    (hkind : kind ≠ .SundialPasha) (h : (txn.validateMulti kind p).committed = false) :
    ((txn.validateMulti kind p).log.map element).Subperm txn.writes := by
  cases kind with
  | Silo => exact (sync_spec .Silo p txn).1
  | Sundial =>
    have hinvalid : (txn.sync .Sundial p).abort_read_validation = true := by
      simpa [validateMulti] using h
    have hlog : (txn.validateMulti .Sundial p).log = (txn.sync .Sundial p).log := by
      simp [validateMulti, hinvalid]
    rw [hlog]
    exact (sync_spec .Sundial p txn).1
  | SundialPasha => exact absurd rfl hkind

theorem filter_expected (kind : Kind) (txn : RedoTransaction) :
    ((txn.expected kind).filter fun e => e.1 = .write) = txn.writes := by
  have hwrites : (txn.writes.filter fun e => e.1 = .write) = txn.writes := by
    simp [writes]
  cases kind with
  | Silo => exact hwrites
  | Sundial | SundialPasha =>
    simp only [expected, elements, filter_append, hwrites]
    simp

theorem writes_of_perm {n : Nat} {log : List (Redo n)}
    (h : (log.map element).Perm (txn.expected kind)) :
    ((log.filter (·.log_type = .write)).map element).Perm txn.writes := by
  have hfilter := h.filter fun e => e.1 = .write
  rw [filter_expected, filter_map] at hfilter
  exact hfilter

theorem multi_writes_of_committed (p : Partitioner) (txn : RedoTransaction)
    (h : (txn.validateMulti .SundialPasha p).committed = true) :
    (((txn.validateMulti .SundialPasha p).log.filter (·.log_type = .write)).map
      element).Perm txn.writes := by
  have hvalid : (txn.validateAll p).abort_read_validation = false := by
    simpa [validateMulti] using h
  have hlog := (foldl_validateCoordinator txn _ _ hvalid).2
  exact (List.Perm.of_eq hlog).trans (perm_writes p txn)

-- Redo records are written while the reads are validated. What commits has one record for
-- each element; what aborts has none on one partition, and in Silo and Sundial on several
-- ones at most what the coordinators had to prepare.
theorem commit_log (kind : Kind) (p : Partitioner) (txn : RedoTransaction) :
    (txn.abort_lock = true → txn.commit kind p = ⟨false, []⟩) ∧
    ((txn.commit kind p).committed = true →
      (((txn.commit kind p).log.filter (·.log_type = .write)).map element).Perm
        txn.writes) ∧
    ((txn.commit kind p).committed = true →
      (kind = .SundialPasha → txn.is_single_partition = true) →
      ((txn.commit kind p).log.map element).Perm (txn.expected kind)) ∧
    ((txn.commit kind p).committed = false → kind ≠ .Silo → txn.is_single_partition = true →
      (txn.commit kind p).log = []) ∧
    ((txn.commit kind p).committed = false → kind ≠ .SundialPasha →
      txn.is_single_partition = false →
      ((txn.commit kind p).log.map element).Subperm txn.writes) := by
  cases hlock : txn.abort_lock with
  | true =>
    have hcommit : txn.commit kind p = ⟨false, []⟩ := by simp [commit, hlock]
    rw [hcommit]
    exact ⟨fun _ => rfl, nofun, nofun, fun _ _ _ => rfl, fun _ _ _ => nil_subperm⟩
  | false =>
    cases hsingle : txn.is_single_partition with
    | true =>
      have hcommit : txn.commit kind p = txn.validateSingle kind p := by
        simp [commit, hlock, validate_read_set_and_redo, hsingle]
      rw [hcommit]
      have hperm (h : (txn.validateSingle kind p).committed = true) :=
        List.Perm.of_eq (single_of_committed kind p txn hlock h)
      exact ⟨nofun, fun h => writes_of_perm (hperm h), fun h _ => hperm h,
        fun h hkind _ => single_of_aborted kind p txn hkind h, fun _ _ => nofun⟩
    | false =>
      have hcommit : txn.commit kind p = txn.validateMulti kind p := by
        simp [commit, hlock, validate_read_set_and_redo, hsingle]
      rw [hcommit]
      refine ⟨nofun, fun h => ?_, fun h hkind => ?_, fun _ _ => nofun, fun h hkind _ => ?_⟩
      · by_cases hkind : kind = .SundialPasha
        · subst hkind
          exact multi_writes_of_committed p txn h
        · exact writes_of_perm (multi_of_committed kind p txn hkind h)
      · exact multi_of_committed kind p txn (fun he => nomatch hkind he) h
      · exact multi_of_aborted kind p txn hkind h

abbrev twoCoordinators : Partitioner := ⟨2, ⟨0, Nat.two_pos⟩, fun i => ⟨i % 2, Nat.mod_lt i Nat.two_pos⟩⟩

def transfer (validates : Bool) : RedoTransaction where
  is_single_partition := false
  abort_lock := false
  commit_ts := 1
  readSet := [⟨1, 7, false, 0, validates⟩]
  writeSet := [⟨0, 0, 5, 50⟩, ⟨0, 1, 6, 60⟩]
  insertSet := [⟨1, 0, 8, 80⟩]
  deleteSet := []

theorem commit_log_of_transfer :
    ((transfer true).commit .Sundial twoCoordinators).committed = true ∧
      (((transfer true).commit .Sundial twoCoordinators).log.map element).Perm
        [(.write, ⟨0, 0, 5, 50⟩), (.write, ⟨0, 1, 6, 60⟩), (.insert, ⟨1, 0, 8, 80⟩)] :=
  ⟨by decide, (commit_log .Sundial twoCoordinators (transfer true)).2.2.1 (by decide) nofun⟩

-- The second coordinator votes no: the transaction aborts, with its writes in both logs.
theorem aborted_transfer_is_logged :
    (transfer false).commit .Sundial twoCoordinators
      = ⟨false, [⟨0, .write, ⟨0, 0, 5, 50⟩⟩, ⟨1, .write, ⟨0, 1, 6, 60⟩⟩]⟩ := by
  decide

end RedoTransaction

end Tigon.Protocol
