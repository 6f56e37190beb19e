import Tigon.Calvin.Executor.Grants

namespace Tigon.Calvin

open List

open Tigon.Library Tigon.Protocol Tigon.Protocol.LockWord

variable {config : Config} {κ : Type} [DecidableEq κ]

variable {start rows rows' : Rows κ} {held : List (CalvinRWKey κ)} {key : CalvinRWKey κ}

def Uniform (held : List (CalvinRWKey κ)) : Prop :=
  ∀ k ∈ held, ∀ k' ∈ held, SameMode k k'

omit [DecidableEq κ] in
theorem Uniform.append_singleton (h : Uniform held) (hkey : ∀ k ∈ held, SameMode k key) :
    Uniform (held ++ [key]) := by
  intro k hk k' hk'
  rcases mem_append.mp hk with hk | hk
  · rcases mem_append.mp hk' with hk' | hk'
    · exact h k hk k' hk'
    · rw [mem_singleton.mp hk']
      exact hkey k hk
  · rw [mem_singleton.mp hk]
    rcases mem_append.mp hk' with hk' | hk'
    · intro hrow
      exact (hkey k' hk' hrow.symm).symm
    · rw [mem_singleton.mp hk']
      exact fun _ => rfl

section

variable (h : Represents start rows held)

include h

theorem countP_reads_le (row : RowKey κ) : held.countP (·.reads row) ≤ 511 := by
  have hle := readers_view_le (rows row)
  rw [h.view row] at hle
  exact hle

theorem Represents.sameMode_of_lockKey (huniform : Uniform held)
    (hlock : Calvin.lockKey rows key = some rows') : ∀ k ∈ held, SameMode k key := by
  have hview := h.view key.row
  rw [Calvin.lockKey] at hlock
  intro k hk hrow
  by_cases hread : key.get_read_lock_bit = true
  · rw [if_pos hread] at hlock
    obtain ⟨value, hvalue, -⟩ := Option.bind_eq_some_iff.mp hlock
    by_contra hmode
    have hwrites : k.writes key.row = true := by
      simpa [CalvinRWKey.writes, hrow, hread] using hmode
    have hany : held.any (·.writes key.row) = true := any_eq_true.mpr ⟨k, hk, hwrites⟩
    simp [read_lock, hview, hany] at hvalue
  · rw [if_neg hread] at hlock
    rw [eq_false_of_ne_true hread]
    by_cases hlocked : is_write_locked (rows key.row) = true
    · rw [is_write_locked_eq, hview] at hlocked
      obtain ⟨k', hk', hwrites⟩ := any_eq_true.mp hlocked
      obtain ⟨hrow', hbit⟩ := (Bool.and_eq_true _ _).mp hwrites
      rw [huniform k hk k' hk' (hrow.trans (of_decide_eq_true hrow').symm)]
      simpa using hbit
    · rw [if_neg hlocked] at hlock
      obtain ⟨value, hvalue, -⟩ := Option.bind_eq_some_iff.mp hlock
      by_contra hmode
      have hreads : k.reads key.row = true := by
        simpa [CalvinRWKey.reads, hrow] using hmode
      have hcount : held.countP (·.reads key.row) ≠ 0 := by
        intro hzero
        exact countP_eq_zero.mp hzero k hk hreads
      simp [write_lock, hview, hcount] at hvalue

theorem Represents.count_le_of_lockKey (hlock : Calvin.lockKey rows key = some rows') :
    (held ++ [key]).countP (·.reads key.row) ≤ 511 := by
  have hle := countP_reads_le h key.row
  rw [countP_append, countP_singleton]
  by_cases hread : key.get_read_lock_bit = true
  · rw [Calvin.lockKey, if_pos hread] at hlock
    obtain ⟨value, hvalue, -⟩ := Option.bind_eq_some_iff.mp hlock
    have hmax : held.countP (·.reads key.row) ≠ 511 := by
      intro hmax
      simp [read_lock, h.view, hmax] at hvalue
    split <;> omega
  · simpa [CalvinRWKey.reads, hread] using hle

theorem Represents.of_lockKey (huniform : Uniform held)
    (hlock : Calvin.lockKey rows key = some rows') :
    Uniform (held ++ [key]) ∧ Represents start rows' (held ++ [key]) := by
  have hsame := h.sameMode_of_lockKey huniform hlock
  obtain ⟨rows₁, hlock₁, h₁⟩ := h.lockKey hsame (h.count_le_of_lockKey hlock)
  obtain rfl : rows₁ = rows' := Option.some.inj (hlock₁.symm.trans hlock)
  exact ⟨huniform.append_singleton hsame, h₁⟩

theorem Represents.of_lockKeys {keys : List (CalvinRWKey κ)} (huniform : Uniform held)
    (hlocks : keys.foldlM Calvin.lockKey rows = some rows') :
    Uniform (held ++ keys) ∧ Represents start rows' (held ++ keys) := by
  induction keys generalizing rows held with
  | nil =>
    obtain rfl : rows = rows' := Option.some.inj hlocks
    rw [append_nil]
    exact ⟨huniform, h⟩
  | cons key keys ih =>
    rw [foldlM_cons] at hlocks
    obtain ⟨rows₁, hlock, hrest⟩ := Option.bind_eq_some_iff.mp hlocks
    obtain ⟨huniform₁, h₁⟩ := h.of_lockKey huniform hlock
    rw [append_cons]
    exact ih h₁ huniform₁ hrest

theorem Represents.of_grantLocks {requests : List (TransactionLockRequest config κ)}
    {flags : List Bool} (huniform : Uniform held)
    (hgrant : Calvin.grantLocks rows requests = some (rows', flags)) :
    (∀ r ∈ admitted held requests, OneMode r)
      ∧ Represents start rows' (held ++ (admitted held requests).flatMap (·.keys)) := by
  induction requests generalizing rows held flags with
  | nil =>
    obtain ⟨rfl, rfl⟩ := Prod.mk.inj (Option.some.inj hgrant)
    simpa [admitted] using h
  | cons request requests ih =>
    rw [admitted]
    rw [Calvin.grantLocks] at hgrant
    by_cases hcompat : ∀ k' ∈ request.keys, ∀ k ∈ held, Compatible k k'
    · have hall : request.keys.all (Calvin.canObtain rows) = true :=
        all_eq_true.mpr fun k' hk' => h.canObtain_iff.mpr (hcompat k' hk')
      rw [if_pos hall] at hgrant
      obtain ⟨locked, hlocks, hrest⟩ := Option.bind_eq_some_iff.mp hgrant
      obtain ⟨⟨rows₁, flags₁⟩, hgranted, heq⟩ := Option.map_eq_some_iff.mp hrest
      obtain ⟨rfl, -⟩ := Prod.mk.inj heq
      obtain ⟨huniform₁, h₁⟩ := h.of_lockKeys huniform hlocks
      obtain ⟨hmodes, h₂⟩ := ih h₁ huniform₁ hgranted
      have hone : OneMode request := by
        apply pairwise_of_forall_mem_list
        intro k hk k' hk'
        exact huniform₁ k (mem_append_right _ hk) k' (mem_append_right _ hk')
      rw [if_pos hcompat, flatMap_cons, ← append_assoc]
      exact ⟨forall_mem_cons.mpr ⟨hone, hmodes⟩, h₂⟩
    · have hall : ¬ request.keys.all (Calvin.canObtain rows) = true := fun hall =>
        hcompat fun k' hk' => h.canObtain_iff.mp (all_eq_true.mp hall k' hk')
      rw [if_neg hall] at hgrant
      obtain ⟨⟨rows₁, flags₁⟩, hrest, heq⟩ := Option.map_eq_some_iff.mp hgrant
      obtain ⟨rfl, -⟩ := Prod.mk.inj heq
      rw [if_neg hcompat]
      exact ih h huniform hrest

end

def sortedByTid (batch : List (TransactionLockRequest config κ)) :
    List (TransactionLockRequest config κ) :=
  batch.mergeSort (fun lhs rhs => lhs.tid ≤ rhs.tid)

structure Lockable (requests : List (TransactionLockRequest config κ)) : Prop where
  oneMode : ∀ r ∈ requests, OneMode r
  reads_le : ∀ row, (requests.flatMap (·.keys)).countP (·.reads row) ≤ 511

theorem lockable_of_grant {batch : List (TransactionLockRequest config κ)}
    {result : Rows κ × List (LockResponse config)} (hfree : Free rows)
    (hgrant : grant_locks_and_reply rows batch = some result) :
    Lockable (admitted [] (sortedByTid batch)) := by
  obtain ⟨⟨locked, flags⟩, hlocked, -⟩ := Option.map_eq_some_iff.mp hgrant
  obtain ⟨hmodes, hrep⟩ := (Represents.nil hfree).of_grantLocks (by simp [Uniform]) hlocked
  exact ⟨hmodes, countP_reads_le hrep⟩

theorem grant_of_lockable {batch : List (TransactionLockRequest config κ)} (hfree : Free rows)
    (h : Lockable (admitted [] (sortedByTid batch))) :
    ∃ responses, grant_locks_and_reply rows batch = some (rows, responses) := by
  obtain ⟨locked, flags, hgrant, -, hrep, -⟩ :=
    (Represents.nil hfree).grantLocks h.oneMode h.reads_le
  rw [nil_append] at hrep
  refine ⟨((sortedByTid batch).zip flags).map fun request =>
    ⟨request.1.source_coordinator, request.1.tid, request.2⟩, ?_⟩
  refine Option.map_eq_some_iff.mpr ⟨(locked, flags), hgrant, ?_⟩
  rw [← hrep.releaseLocks hfree]
  rfl

theorem grant_locks_and_reply_iff (rows : Rows κ) (hfree : Free rows)
    (batch : List (TransactionLockRequest config κ)) :
    (∃ rows' responses, grant_locks_and_reply rows batch = some (rows', responses) ∧ Free rows')
      ↔ Lockable (admitted [] (sortedByTid batch)) := by
  constructor
  · rintro ⟨rows', responses, hgrant, -⟩
    exact lockable_of_grant hfree hgrant
  · intro h
    obtain ⟨responses, hgrant⟩ := grant_of_lockable hfree h
    exact ⟨rows, responses, hgrant, hfree⟩

def oneNode : Config := ⟨[1], by decide⟩

def node : Coordinator oneNode := ⟨0, by decide⟩

def hotRow : RowKey Nat := ⟨0, 0, 7⟩

omit [DecidableEq κ] in
theorem free_zero : Free (fun _ : RowKey κ => (0 : Word)) :=
  fun _ => (by decide : is_read_locked 0 = false ∧ is_write_locked 0 = false)

theorem lockable_writeTwice :
    Lockable [(⟨node, 1, [⟨hotRow, .write_lock⟩, ⟨hotRow, .write_lock⟩]⟩ :
      TransactionLockRequest oneNode Nat)] := by
  refine ⟨by decide, fun row => ?_⟩
  exact countP_le_length.trans (by decide)

theorem grant_locks_and_reply_writeTwice :
    ∃ (rows' : Rows Nat) (responses : List (LockResponse oneNode)),
      grant_locks_and_reply (fun _ => 0)
        [⟨node, 1, [⟨hotRow, .write_lock⟩, ⟨hotRow, .write_lock⟩]⟩] = some (rows', responses)
      ∧ Free rows' := by
  apply (grant_locks_and_reply_iff (fun _ => 0) free_zero _).mpr
  rw [sortedByTid, mergeSort_singleton]
  exact lockable_writeTwice

theorem admitted_of_reads {requests : List (TransactionLockRequest config κ)}
    (hheld : ∀ k ∈ held, k.get_read_lock_bit = true)
    (hreads : ∀ r ∈ requests, ∀ k ∈ r.keys, k.get_read_lock_bit = true) :
    admitted held requests = requests := by
  induction requests generalizing held with
  | nil => rfl
  | cons request requests ih =>
    obtain ⟨hfirst, hrest⟩ := forall_mem_cons.mp hreads
    rw [admitted, if_pos, ih _ hrest]
    · intro k hk
      rcases mem_append.mp hk with hk | hk
      · exact hheld k hk
      · exact hfirst k hk
    · intro k' hk' k hk _
      exact ⟨hheld k hk, hfirst k' hk'⟩

def hotReads : List (TransactionLockRequest oneNode Nat) :=
  (List.range 512).map fun tid => ⟨node, tid, [⟨hotRow, .read_lock⟩]⟩

theorem not_lockable_hotReads : ¬ Lockable (admitted [] (sortedByTid hotReads)) := by
  have hperm : (sortedByTid hotReads).Perm hotReads := mergeSort_perm _ _
  have hreads : ∀ r ∈ sortedByTid hotReads, ∀ k ∈ r.keys, k.get_read_lock_bit = true := by
    intro r hr k hk
    obtain ⟨tid, -, rfl⟩ := mem_map.mp (hperm.mem_iff.mp hr)
    rw [mem_singleton.mp hk]
    rfl
  intro h
  have hle := h.reads_le hotRow
  rw [admitted_of_reads (by simp) hreads, (hperm.flatMap_right _).countP_eq] at hle
  have hcount : (hotReads.flatMap (·.keys)).countP (·.reads hotRow) = 512 := by
    decide +kernel
  omega

theorem not_lockable_bothModes :
    ¬ Lockable (admitted [] (sortedByTid
      [(⟨node, 1, [⟨hotRow, .read_lock⟩, ⟨hotRow, .write_lock⟩]⟩ :
        TransactionLockRequest oneNode Nat)])) := by
  intro h
  rw [sortedByTid, mergeSort_singleton] at h
  exact absurd h.oneMode (by decide)

-- The lock manager waits for itself: for the 512th read lock of a row, and for the write
-- lock of a row the same transaction reads.
theorem grant_locks_and_reply_stuck :
    grant_locks_and_reply (fun _ => 0) hotReads = none
    ∧ grant_locks_and_reply (fun _ => 0)
        [(⟨node, 1, [⟨hotRow, .read_lock⟩, ⟨hotRow, .write_lock⟩]⟩ :
          TransactionLockRequest oneNode Nat)] = none := by
  constructor
  · apply Option.eq_none_iff_forall_ne_some.mpr
    intro result hgrant
    exact not_lockable_hotReads (lockable_of_grant free_zero hgrant)
  · apply Option.eq_none_iff_forall_ne_some.mpr
    intro result hgrant
    exact not_lockable_bothModes (lockable_of_grant free_zero hgrant)

end Tigon.Calvin
