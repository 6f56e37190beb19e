import Tigon.TwoPLPasha.RedoLog

namespace Tigon.TwoPLPasha

open List WriteTransaction LoggedKey Tigon.Library

namespace WriteTransaction

variable {R α : Type} {phantom : Bool} {master : R → Bool} {c : Contents R α}
  {txn txn' : WriteTransaction R α} {row : R}

section Locks

theorem mem_updates {u : R × α} :
    u ∈ txn.updates phantom ↔
      (∃ k ∈ txn.readSet, k.write_lock_bit = true ∧ (k.row, k.value) = u) ∨
      phantom = true ∧ ∃ k ∈ txn.scanSet, k.type = .SCAN_FOR_UPDATE ∧ u ∈ k.scan_results := by
  cases phantom <;> simp [updates, and_assoc]

theorem mem_deletes :
    row ∈ txn.deletes phantom ↔
      phantom = true ∧ (∃ k ∈ txn.scanSet, k.type = .SCAN_FOR_DELETE ∧
        row ∈ k.scan_results.map Prod.fst) ∨
      phantom = false ∧ ∃ k ∈ txn.deleteSet, k.row = row := by
  cases phantom with
  | false => simp [deletes]
  | true =>
    simp only [deletes, if_true, mem_flatMap, true_and, reduceCtorEq, false_and, or_false]
    refine exists_congr fun k => and_congr_right fun _ => ?_
    split
    · rename_i htype
      simp [htype]
    · rename_i htype
      simp [htype]

theorem mem_locked :
    row ∈ txn.locked phantom ↔
      (∃ k ∈ txn.readSet, k.write_lock_bit = true ∧ k.row = row) ∨
      phantom = true ∧ (∃ k ∈ txn.scanSet, k.type ≠ .SCAN_FOR_READ ∧
        row ∈ k.scan_results.map Prod.fst) ∨
      phantom = false ∧ ∃ k ∈ txn.deleteSet, k.row = row := by
  cases phantom with
  | false => simp [locked, and_assoc]
  | true =>
    simp only [locked, if_true, mem_append, mem_map, mem_filter, mem_flatMap,
      true_and, reduceCtorEq, false_and, or_false, and_assoc]
    refine or_congr Iff.rfl (exists_congr fun k => and_congr_right fun _ => ?_)
    split
    · rename_i htype
      simp [htype]
    · rename_i htype
      simp [htype]

theorem locked_of_mem_updates {u : R × α} (h : u ∈ txn.updates phantom) :
    u.1 ∈ txn.locked phantom := by
  rw [mem_locked]
  rcases mem_updates.mp h with ⟨k, hk, hbit, rfl⟩ | ⟨hphantom, k, hk, htype, hu⟩
  · exact .inl ⟨k, hk, hbit, rfl⟩
  · exact .inr (.inl ⟨hphantom, k, hk, by simp [htype], mem_map_of_mem hu⟩)

theorem locked_of_mem_deletes (h : row ∈ txn.deletes phantom) : row ∈ txn.locked phantom := by
  rw [mem_locked]
  rcases mem_deletes.mp h with ⟨hphantom, k, hk, htype, hrow⟩ | hdelete
  · exact .inr (.inl ⟨hphantom, k, hk, by simp [htype], hrow⟩)
  · exact .inr (.inr hdelete)

-- What the locks give a commit: every row it writes or removes is there, and no two of
-- its requests write or remove the same one.
structure Exclusive (phantom : Bool) (c : Contents R α) (txn : WriteTransaction R α) : Prop where
  updates_valid : ∀ u ∈ txn.updates phantom, (c u.1).isSome
  deletes_valid : ∀ row ∈ txn.deletes phantom, (c row).isSome
  single : ∀ u ∈ txn.updates phantom, ∀ u' ∈ txn.updates phantom, u.1 = u'.1 → u.2 = u'.2
  apart : ∀ u ∈ txn.updates phantom, u.1 ∉ txn.deletes phantom

theorem Exclusive.extend (h : Exclusive phantom c txn) (writes : List (R × α)) (removes : List R)
    (hupdates : ∀ u ∈ txn'.updates phantom, u ∈ txn.updates phantom ∨ u ∈ writes)
    (hdeletes : ∀ row ∈ txn'.deletes phantom, row ∈ txn.deletes phantom ∨ row ∈ removes)
    (hwrites : (writes.map Prod.fst).Nodup)
    (hlock : ∀ row ∈ writes.map Prod.fst ++ removes,
      (c row).isSome ∧ row ∉ txn.locked phantom)
    (hone : writes = [] ∨ removes = []) : Exclusive phantom c txn' := by
  have hwrite : ∀ u ∈ writes, (c u.1).isSome ∧ u.1 ∉ txn.locked phantom :=
    fun u hu => hlock u.1 (mem_append_left _ (mem_map_of_mem hu))
  have hremove : ∀ row ∈ removes, (c row).isSome ∧ row ∉ txn.locked phantom :=
    fun row hrow => hlock row (mem_append_right _ hrow)
  refine ⟨fun u hu => ?_, fun row hrow => ?_, fun u hu u' hu' heq => ?_, fun u hu hrow => ?_⟩
  · exact (hupdates u hu).elim (h.updates_valid u) fun hu => (hwrite u hu).1
  · exact (hdeletes row hrow).elim (h.deletes_valid row) fun hrow => (hremove row hrow).1
  · rcases hupdates u hu with hold | hnew <;> rcases hupdates u' hu' with hold' | hnew'
    · exact h.single u hold u' hold' heq
    · exact absurd (heq ▸ locked_of_mem_updates hold) (hwrite u' hnew').2
    · exact absurd (heq ▸ locked_of_mem_updates hold') (hwrite u hnew).2
    · exact congrArg Prod.snd (inj_on_of_nodup_map hwrites hnew hnew' heq)
  · rcases hupdates u hu with hold | hnew <;> rcases hdeletes _ hrow with hold' | hnew'
    · exact h.apart u hold hold'
    · exact (hremove _ hnew').2 (locked_of_mem_updates hold)
    · exact (hwrite u hnew).2 (locked_of_mem_deletes hold')
    · rcases hone with rfl | rfl
      · cases hnew
      · cases hnew'

theorem Exclusive.same (h : Exclusive phantom c txn)
    (hupdates : txn'.updates phantom = txn.updates phantom)
    (hdeletes : txn'.deletes phantom = txn.deletes phantom) : Exclusive phantom c txn' := by
  refine h.extend [] [] ?_ ?_ nodup_nil nofun (.inl rfl)
  · rw [hupdates]
    exact fun u hu => .inl hu
  · rw [hdeletes]
    exact fun row hrow => .inl hrow

theorem Prepared.exclusive (h : Prepared phantom master c txn) : Exclusive phantom c txn := by
  induction h with
  | start => cases phantom <;> exact ⟨nofun, nofun, nofun, nofun⟩
  | search_for_read row value _ ih => exact ih.same (by simp [updates]) rfl
  | search_for_update row value _ hvalid hlock ih =>
    refine ih.extend [(row, value)] [] ?_ (fun _ hrow => .inl hrow) (by simp) ?_ (.inr rfl)
    · intro u hu
      rw [mem_updates] at hu ⊢
      simp only [mem_append, mem_singleton] at hu ⊢
      rcases hu with ⟨k, hk | rfl, hbit, rfl⟩ | hscan
      · exact .inl (.inl ⟨k, hk, hbit, rfl⟩)
      · exact .inr rfl
      · exact .inl (.inr hscan)
    · simpa using ⟨hvalid, hlock⟩
  | update k _ ih => exact ih.same rfl rfl
  | @scan txn k _ hlock ih =>
    cases phantom with
    | false => exact ih.same rfl rfl
    | true =>
      have hupdates : ∀ u ∈ updates true
          { txn with scanSet := txn.scanSet ++ [k] },
          u ∈ txn.updates true ∨ k.type = .SCAN_FOR_UPDATE ∧ u ∈ k.scan_results := by
        intro u hu
        rw [mem_updates] at hu ⊢
        simp only [mem_append, mem_singleton, true_and] at hu ⊢
        rcases hu with hpoint | ⟨k', hk | rfl, hu⟩
        · exact .inl (.inl hpoint)
        · exact .inl (.inr ⟨k', hk, hu⟩)
        · exact .inr hu
      have hdeletes : ∀ row ∈ deletes true
          { txn with scanSet := txn.scanSet ++ [k] },
          row ∈ txn.deletes true ∨
            k.type = .SCAN_FOR_DELETE ∧ row ∈ k.scan_results.map Prod.fst := by
        intro row hrow
        rw [mem_deletes] at hrow ⊢
        simp only [mem_append, mem_singleton, true_and, reduceCtorEq, false_and,
          or_false] at hrow ⊢
        rcases hrow with ⟨k', hk | rfl, hrow⟩
        · exact .inl ⟨k', hk, hrow⟩
        · exact .inr hrow
      -- the results are to be written, to be removed, or only to be locked
      by_cases hup : k.type = .SCAN_FOR_UPDATE
      · obtain ⟨hnodup, hrows⟩ := hlock rfl (by simp [hup])
        refine ih.extend k.scan_results [] (fun u hu => (hupdates u hu).imp_right And.right) ?_
          hnodup (by simpa using hrows) (.inr rfl)
        intro row hrow
        exact (hdeletes row hrow).imp_right fun hdel => by simp [hup] at hdel
      · have hwrites : ∀ u ∈ updates true
            { txn with scanSet := txn.scanSet ++ [k] }, u ∈ txn.updates true ∨ u ∈ [] :=
          fun u hu => (hupdates u hu).imp_right fun hscan => absurd hscan.1 hup
        by_cases hdel : k.type = .SCAN_FOR_DELETE
        · obtain ⟨-, hrows⟩ := hlock rfl (by simp [hdel])
          exact ih.extend [] (k.scan_results.map Prod.fst) hwrites
            (fun row hrow => (hdeletes row hrow).imp_right And.right) nodup_nil hrows
            (.inl rfl)
        · exact ih.extend [] [] hwrites
            (fun row hrow => (hdeletes row hrow).imp_right fun hscan => absurd hscan.1 hdel)
            nodup_nil nofun (.inl rfl)
  | insert_row k _ _ _ ih => exact ih.same rfl rfl
  | delete_row k _ hlock ih =>
    cases phantom with
    | true => exact ih.same rfl rfl
    | false =>
      refine ih.extend [] [k.row] (fun _ hu => .inl hu) ?_ nodup_nil ?_ (.inl rfl)
      · intro row hrow
        simpa [deletes] using hrow
      · simpa using hlock rfl

-- What the index gives a commit: a master inserts a row once, and where there was none.
def Placed (master : R → Bool) (c : Contents R α) (txn : WriteTransaction R α) : Prop :=
  ∀ k ∈ txn.insertSet, master k.row = true →
    c k.row = none ∧ ∀ k' ∈ txn.insertSet, k'.row = k.row → k'.value = k.value

theorem Prepared.placed (h : Prepared phantom master c txn) : Placed master c txn := by
  induction h with
  | start => exact nofun
  | search_for_read _ _ _ ih | search_for_update _ _ _ _ _ ih | update _ _ ih
  | scan _ _ _ ih | delete_row _ _ _ ih => exact ih
  | insert_row k _ _ hplace ih =>
    intro k₁ hk₁ hmaster
    simp only [mem_append, mem_singleton] at hk₁
    rcases hk₁ with hk₁ | rfl
    · obtain ⟨hnone, hone⟩ := ih k₁ hk₁ hmaster
      refine ⟨hnone, fun k₂ hk₂ hrow => ?_⟩
      simp only [mem_append, mem_singleton] at hk₂
      rcases hk₂ with hk₂ | rfl
      · exact hone k₂ hk₂ hrow
      · exact absurd hrow.symm ((hplace (hrow ▸ hmaster)).2 k₁ hk₁)
    · obtain ⟨hnone, hnew⟩ := hplace hmaster
      refine ⟨hnone, fun k₂ hk₂ hrow => ?_⟩
      simp only [mem_append, mem_singleton] at hk₂
      rcases hk₂ with hk₂ | rfl
      · exact absurd hrow (hnew k₂ hk₂)
      · rfl

end Locks

section Rows

variable [DecidableEq R] {l : List (LoggedKey R α)}

def firstValue (l : List (LoggedKey R α)) (row : R) : Option α :=
  (l.find? fun k => k.row = row).map value

def lastValue (l : List (LoggedKey R α)) (row : R) : Option α :=
  (l.filter fun k => k.row = row).getLast?.map value

theorem lastValue_eq_none : lastValue l row = none ↔ ∀ k ∈ l, k.row ≠ row := by
  simp [lastValue]

theorem exists_of_lastValue {v : α} (h : lastValue l row = some v) :
    ∃ k ∈ l, k.row = row ∧ k.value = v := by
  rw [lastValue, Option.map_eq_some_iff] at h
  obtain ⟨k, hk, rfl⟩ := h
  have hmem := mem_of_getLast? hk
  simp only [mem_filter, decide_eq_true_eq] at hmem
  exact ⟨k, hmem.1, hmem.2, rfl⟩

theorem firstValue_eq_none : firstValue l row = none ↔ ∀ k ∈ l, k.row ≠ row := by
  simp [firstValue]

theorem replay_values (log_type : LogType) (hvalue : log_type ≠ .delete) (epoch : Word)
    (l : List (LoggedKey R α)) (c : Contents R α) (row : R) :
    replay (l.map (redo log_type epoch)) c row = (lastValue l row).or (c row) := by
  have hfold : replay (l.map (redo log_type epoch)) c
      = l.foldl (fun c k => onKey c k.row fun _ => some k.value) c := by
    rw [replay, foldl_map]
    cases log_type with
    | update | insert => rfl
    | delete => exact absurd rfl hvalue
  rw [hfold, foldl_onKey_apply, foldl_overwrite, lastValue]
  cases (l.filter fun k => k.row = row).getLast? <;> rfl

theorem replay_deletes (epoch : Word) (l : List (DeleteKey R)) (c : Contents R α) (row : R) :
    replay (l.map fun k => ⟨.delete, k.row, generate_epoch_version k.tid epoch, none⟩) c row
      = if row ∈ l.map DeleteKey.row then none else c row := by
  have hfold : replay (l.map fun k => (⟨.delete, k.row, generate_epoch_version k.tid epoch, none⟩ :
      RedoRecord R α)) c = l.foldl (fun c k => onKey c k.row fun _ => none) c := by
    rw [replay, foldl_map]
    rfl
  rw [hfold, foldl_onKey_const]

theorem replay_log (epoch : Word) (txn : WriteTransaction R α) (c : Contents R α) (row : R) :
    replay (txn.write_redo_logs_for_commit epoch) c row
      = if row ∈ txn.deleteSet.map DeleteKey.row then none
        else (lastValue txn.insertSet row).or ((lastValue txn.writeSet row).or (c row)) := by
  have happend : ∀ (log log' : List (RedoRecord R α)) (c : Contents R α),
      replay (log ++ log') c = replay log' (replay log c) := fun _ _ _ => foldl_append
  rw [write_redo_logs_for_commit, happend, happend, replay_deletes,
    replay_values .insert (by decide), replay_values .update (by decide)]

omit [DecidableEq R] in
-- Later requests for a row change nothing: a master has none with another value, and
-- another host has the row by then.
theorem foldl_commitInsert_some {v : α}
    (h : ∀ k ∈ l, k.row = row ∧ (master row = true → k.value = v)) :
    l.foldl (fun x k => commitInsert master k x) (some v) = some v := by
  induction l with
  | nil => rfl
  | cons k rest ih =>
    obtain ⟨hrow, hvalue⟩ := h k mem_cons_self
    have hone : commitInsert master k (some v) = some v := by
      rw [commitInsert, hrow]
      cases hm : master row with
      | true => simp [hvalue hm]
      | false => simp
    rw [foldl_cons, hone]
    exact ih fun k' hk' => h k' (mem_cons_of_mem _ hk')

-- The inserts of a commit: a row that is there stays, and the first value for it is the
-- one that goes in.
theorem inserts_apply (hplaced : Placed master c txn) (row : R) :
    (txn.insertSet.foldl (fun c k => onKey c k.row (commitInsert master k)) c) row
      = (c row).or (firstValue txn.insertSet row) := by
  rw [foldl_onKey_apply, firstValue, ← List.head?_filter]
  have hrows : ∀ k ∈ txn.insertSet.filter fun k => k.row = row, k.row = row := by
    intro k hk
    simpa using (mem_filter.mp hk).2
  have hmem : ∀ k ∈ txn.insertSet.filter fun k => k.row = row, k ∈ txn.insertSet :=
    fun k hk => (mem_filter.mp hk).1
  cases hl : txn.insertSet.filter fun k => k.row = row with
  | nil => simp
  | cons k rest =>
    rw [hl] at hrows hmem
    have hk := hrows k mem_cons_self
    have hsame : ∀ k' ∈ rest, k'.row = row ∧ (master row = true → k'.value = k.value) := by
      intro k' hk'
      have hrow := hrows k' (mem_cons_of_mem _ hk')
      refine ⟨hrow, fun hm => ?_⟩
      obtain ⟨-, hone⟩ := hplaced k (hmem k mem_cons_self) (by rw [hk]; exact hm)
      exact hone k' (hmem k' (mem_cons_of_mem _ hk')) (hrow.trans hk.symm)
    rw [foldl_cons]
    cases hc : c row with
    | none =>
      have hfirst : commitInsert master k none = some k.value := by simp [commitInsert]
      rw [hfirst, foldl_commitInsert_some hsame]
      rfl
    | some v =>
      have hother : master row = false := by
        cases hm : master row with
        | false => rfl
        | true =>
          obtain ⟨hnone, -⟩ := hplaced k (hmem k mem_cons_self) (by rw [hk]; exact hm)
          rw [hk, hc] at hnone
          cases hnone
      have hfirst : commitInsert master k (some v) = some v := by
        simp [commitInsert, hk, hother]
      rw [hfirst, foldl_commitInsert_some fun k' hk' => ⟨(hsame k' hk').1, by simp [hother]⟩]
      rfl

omit [DecidableEq R] in
theorem foldl_update_some {l : List (R × α)} {v old : α} (h : ∀ u ∈ l, u.2 = v) (hl : l ≠ []) :
    l.foldl (fun x u => x.map fun _ => u.2) (some old) = some v := by
  induction l generalizing old with
  | nil => exact absurd rfl hl
  | cons u l ih =>
    have hu := h u mem_cons_self
    rw [foldl_cons, Option.map_some, hu]
    cases hl : l with
    | nil => rfl
    | cons u' l' =>
      rw [← hl]
      exact ih (fun u' hu' => h u' (mem_cons_of_mem _ hu')) (by simp [hl])

variable (hplaced : Placed master c txn) (hexclusive : Exclusive phantom c txn)

include hplaced

theorem deletes_apply (row : R) :
    ((txn.deletes phantom).foldl (fun c row => onKey c row fun _ => none)
      (txn.insertSet.foldl (fun c k => onKey c k.row (commitInsert master k)) c)) row
      = if row ∈ txn.deletes phantom then none
        else (c row).or (firstValue txn.insertSet row) := by
  have hconst := foldl_onKey_const (id : R → R) (none : Option α) (txn.deletes phantom)
    (txn.insertSet.foldl (fun c k => onKey c k.row (commitInsert master k)) c) row
  rw [map_id, inserts_apply hplaced] at hconst
  exact hconst

include hexclusive

theorem commit_of_mem_updates {u : R × α} (h : u ∈ txn.updates phantom) :
    txn.commit phantom master c u.1 = some u.2 := by
  obtain ⟨old, hold⟩ := Option.isSome_iff_exists.mp (hexclusive.updates_valid u h)
  rw [commit, foldl_onKey_apply, deletes_apply hplaced, if_neg (hexclusive.apart u h), hold,
    Option.some_or]
  have hvalue : ∀ u' ∈ (txn.updates phantom).filter fun u' => u'.1 = u.1, u'.2 = u.2 := by
    intro u' hu'
    obtain ⟨hmem, hrow⟩ := mem_filter.mp hu'
    exact hexclusive.single u' hmem u h (by simpa using hrow)
  exact foldl_update_some hvalue (ne_nil_of_mem (mem_filter.mpr ⟨h, by simp⟩))

theorem commit_of_mem_deletes (h : row ∈ txn.deletes phantom) :
    txn.commit phantom master c row = none := by
  have hnil : ((txn.updates phantom).filter fun u => u.1 = row) = [] := by
    rw [filter_eq_nil_iff]
    intro u hu hrow
    have hrow' : u.1 = row := by simpa using hrow
    exact hexclusive.apart u hu (hrow' ▸ h)
  rw [commit, foldl_onKey_apply, deletes_apply hplaced, if_pos h, hnil]
  rfl

omit hexclusive

theorem commit_of_untouched (hdelete : row ∉ txn.deletes phantom)
    (hupdate : ∀ u ∈ txn.updates phantom, u.1 ≠ row) :
    txn.commit phantom master c row = (c row).or (firstValue txn.insertSet row) := by
  have hnil : ((txn.updates phantom).filter fun u => u.1 = row) = [] := by
    simpa using hupdate
  rw [commit, foldl_onKey_apply, deletes_apply hplaced, if_neg hdelete, hnil]
  rfl

end Rows

section Completeness

variable [DecidableEq R]

def Untouched (phantom : Bool) (txn : WriteTransaction R α) (row : R) : Prop :=
  row ∉ txn.deletes phantom ∧ ∀ u ∈ txn.updates phantom, u.1 ≠ row

instance (phantom : Bool) (txn : WriteTransaction R α) (row : R) :
    Decidable (txn.Untouched phantom row) :=
  inferInstanceAs (Decidable (_ ∧ _))

-- The requests of a transaction are in the log. What is written is the last value logged
-- for the row, or what the row had; every row that is removed has a delete_row; an insert
-- finds no row, or one with its value; and nothing is logged for other rows that they do not
-- have already.
structure Logged (phantom : Bool) (c : Contents R α) (txn : WriteTransaction R α) : Prop where
  updates : ∀ u ∈ txn.updates phantom, u.1 ∉ txn.deleteSet.map DeleteKey.row ∧
    (lastValue txn.insertSet u.1).or ((lastValue txn.writeSet u.1).or (c u.1)) = some u.2
  deletes : ∀ row ∈ txn.deletes phantom, row ∈ txn.deleteSet.map DeleteKey.row
  inserts : ∀ k ∈ txn.insertSet, txn.Untouched phantom k.row →
    k.row ∉ txn.deleteSet.map DeleteKey.row ∧
    lastValue txn.insertSet k.row = (c k.row).or (firstValue txn.insertSet k.row)
  writes : ∀ k ∈ txn.writeSet, txn.Untouched phantom k.row →
    k.row ∉ txn.deleteSet.map DeleteKey.row → (∀ k' ∈ txn.insertSet, k'.row ≠ k.row) →
    lastValue txn.writeSet k.row = c k.row
  removed : ∀ k ∈ txn.deleteSet, txn.Untouched phantom k.row → c k.row = none

variable {epoch : Word}

theorem Logged.replay_of_untouched (h : Logged phantom c txn) (hrow : txn.Untouched phantom row) :
    replay (txn.write_redo_logs_for_commit epoch) c row
      = (c row).or (firstValue txn.insertSet row) := by
  rw [replay_log]
  by_cases hinsert : ∃ k ∈ txn.insertSet, k.row = row
  · obtain ⟨k, hk, rfl⟩ := hinsert
    obtain ⟨hdelete, hlast⟩ := h.inserts k hk hrow
    rw [if_neg hdelete, hlast]
    cases hvalue : (c k.row).or (firstValue txn.insertSet k.row) with
    | some v => rfl
    | none =>
      rw [hvalue] at hlast
      exact absurd rfl (lastValue_eq_none.mp hlast k hk)
  · have hnone : ∀ k ∈ txn.insertSet, k.row ≠ row := fun k hk heq => hinsert ⟨k, hk, heq⟩
    rw [firstValue_eq_none.mpr hnone, lastValue_eq_none.mpr hnone, Option.none_or, Option.or_none]
    split
    · rename_i hdelete
      obtain ⟨k, hk, rfl⟩ := mem_map.mp hdelete
      exact (h.removed k hk hrow).symm
    · rename_i hdelete
      cases hlast : lastValue txn.writeSet row with
      | none => rfl
      | some v =>
        obtain ⟨k, hk, rfl, -⟩ := exists_of_lastValue hlast
        rw [← h.writes k hk hrow hdelete hnone, hlast]
        rfl

def twoRows : Contents Nat Nat := fun row => if row = 3 ∨ row = 5 then some 10 else none

def mixed : WriteTransaction Nat Nat where
  readSet := [⟨3, 11, true⟩]
  writeSet := [⟨3, 11, 0⟩]
  scanSet := [⟨.SCAN_FOR_DELETE, [(5, 10)]⟩]
  insertSet := [⟨4, 12, 0⟩]
  deleteSet := [⟨5, 0⟩]

def scanned : WriteTransaction Nat Nat where
  readSet := []
  writeSet := []
  scanSet := [⟨.SCAN_FOR_UPDATE, [(3, 11)]⟩]
  insertSet := []
  deleteSet := []

end Completeness

end WriteTransaction

end Tigon.TwoPLPasha
