import Tigon.Pasha.Eviction
import Tigon.Pasha.PolicyLRU.Tracking

namespace Tigon.Pasha.PolicyLRU

open List

open Tigon.Library MigrationManager

variable {σ ρ β : Type} [DecidableEq ρ] [DecidableEq β] {callbacks : Callbacks σ ρ (ρ × β)}
  {v : View σ ρ β} {under_budget : Nat → Bool} {s s' : σ} {t t' : LRUTracker ρ (ρ × β)}
  {l us ws : List (ρ × β)} {w : ρ × β}

def leastRecent (v : View σ ρ β) (s : σ) (l : List (ρ × β)) (k : Nat) : List ρ :=
  ((l.filter fun n => v.ref_cnt s n.1 = 0).take k).map Prod.fst

def remaining (v : View σ ρ β) (s : σ) (l : List (ρ × β)) (k : Nat) : List (ρ × β) :=
  l.filter fun n => n.1 ∉ leastRecent v s l k

section Turns

omit [DecidableEq ρ] [DecidableEq β] in
theorem isSome_of_mem (ht : t.Lists (v.placed s) l) (hw : w ∈ l) : (v.placed s w.1).isSome := by
  rw [(ht.rows.mem w).mp hw]
  rfl

theorem turn_refuses (hE : Evicts v callbacks) (hinv : v.inv s) (ht : t.Lists (v.placed s) l)
    (hvictim : t.get_next_victim.cur_victim = some w) (hw : w ∈ l) (hpos : 0 < v.ref_cnt s w.1) :
    ∃ s', v.inv s' ∧ v.Takes s s' [] ∧ t.get_next_victim.Lists (v.placed s') l ∧
      ∀ fuel moved, moveOutLoop callbacks under_budget (fuel + 1) moved s t
        = moveOutLoop callbacks under_budget fuel moved s' t.get_next_victim := by
  obtain ⟨s', hmove, hinv', htakes⟩ := hE.refuses s w.1 hinv (isSome_of_mem ht hw) hpos
  have hplaced : v.placed s' = v.placed s := funext fun row => by simp [htakes.placed]
  have hentity : t.get_next_victim.row_entity_ptr w = some w.1 := ht.entity w hw
  refine ⟨s', hinv', htakes, ?_, ?_⟩
  · rw [hplaced]
    exact ht.victim
  · intro fuel moved
    simp only [moveOutLoop, hvictim, hentity, hmove]

theorem turn_moves (hE : Evicts v callbacks) (hinv : v.inv s)
    (ht : t.Lists (v.placed s) (us ++ w :: ws))
    (hvictim : t.get_next_victim.cur_victim = some w) (hzero : v.ref_cnt s w.1 = 0) :
    ∃ s' t', v.inv s' ∧ v.Takes s s' [w.1] ∧ t'.Lists (v.placed s') (us ++ ws) ∧
      t'.cur_victim = none ∧
      ∀ fuel moved, moveOutLoop callbacks under_budget (fuel + 1) moved s t
        = if under_budget (moved + 1) then .ok (s', t', true)
          else moveOutLoop callbacks under_budget fuel (moved + 1) s' t' := by
  have hw : w ∈ us ++ w :: ws := by simp
  obtain ⟨s', hmove, hinv', htakes⟩ := hE.moves s w.1 hinv (isSome_of_mem ht hw) hzero
  have hplaced : v.placed s' = Function.update (v.placed s) w.1 none := by
    funext row
    by_cases hrow : row = w.1
    · simp [htakes.placed, hrow]
    · simp [htakes.placed, hrow]
  have hentity : t.get_next_victim.row_entity_ptr w = some w.1 := ht.entity w hw
  obtain ⟨list, huntrack, hlists, -⟩ := ht.victim.untrack
  have hfree := hlists.freeRowEntity ht.rows.not_mem
  refine ⟨s', _, hinv', htakes, hplaced ▸ hfree, rfl, ?_⟩
  intro fuel moved
  simp only [moveOutLoop, hvictim, hentity, hmove, huntrack]

end Turns

section Order

section

omit [DecidableEq ρ] [DecidableEq β]

theorem leastRecent_congr (href : ∀ n ∈ l, v.ref_cnt s' n.1 = v.ref_cnt s n.1) (k : Nat) :
    leastRecent v s' l k = leastRecent v s l k := by
  rw [leastRecent, leastRecent, filter_congr]
  intro n hn
  rw [href n hn]

theorem leastRecent_succ (hus : ∀ n ∈ us, 0 < v.ref_cnt s n.1) (hzero : v.ref_cnt s w.1 = 0)
    (k : Nat) :
    leastRecent v s (us ++ w :: ws) (k + 1) = w.1 :: leastRecent v s (us ++ ws) k := by
  have hnone : us.filter (fun n => decide (v.ref_cnt s n.1 = 0)) = [] := by
    apply filter_eq_nil_iff.mpr
    intro n hn
    have hpos := hus n hn
    simp only [decide_eq_true_eq]
    omega
  simp [leastRecent, filter_append, hnone, hzero]

end

section

omit [DecidableEq β]

theorem remaining_congr (href : ∀ n ∈ l, v.ref_cnt s' n.1 = v.ref_cnt s n.1) (k : Nat) :
    remaining v s' l k = remaining v s l k := by
  rw [remaining, remaining, leastRecent_congr href]

theorem remaining_zero : remaining v s l 0 = l := by
  simp [remaining, leastRecent]

theorem remaining_succ (hrows : ((us ++ w :: ws).map Prod.fst).Nodup)
    (hus : ∀ n ∈ us, 0 < v.ref_cnt s n.1) (hzero : v.ref_cnt s w.1 = 0) (k : Nat) :
    remaining v s (us ++ w :: ws) (k + 1) = remaining v s (us ++ ws) k := by
  rw [remaining, remaining, leastRecent_succ hus hzero, filter_append,
    filter_cons_of_neg (by simp), ← filter_append]
  apply filter_congr
  intro n hn
  have hne : n.1 ≠ w.1 := by
    rw [map_append, map_cons, nodup_middle] at hrows
    intro heq
    apply (nodup_cons.mp hrows).1
    rw [← heq, ← map_append]
    exact mem_map_of_mem hn
  simp [hne]

end

end Order

-- The outcome of a loop that has moved out `moved` rows before: it has taken the first `k`
-- free rows, and stops short of the budget only if no free row is left.
structure EvictsFirst (v : View σ ρ β) (under_budget : Nat → Bool) (moved : Nat) (s : σ)
    (l : List (ρ × β)) (k : Nat) (s' : σ) (t' : LRUTracker ρ (ρ × β)) : Prop where
  inv : v.inv s'
  count : (leastRecent v s l k).length = k
  takes : v.Takes s s' (leastRecent v s l k)
  lists : t'.Lists (v.placed s') (remaining v s l k)
  budget : under_budget (moved + k) = false → ∀ n ∈ remaining v s l k, 0 < v.ref_cnt s n.1

section Outcome

variable {moved k : Nat}

omit [DecidableEq β] in
theorem EvictsFirst.after_refusal {s₁ : σ} (hl : ∀ n ∈ l, (v.placed s n.1).isSome)
    (htakes : v.Takes s s₁ []) (h : EvictsFirst v under_budget moved s₁ l k s' t') :
    EvictsFirst v under_budget moved s l k s' t' := by
  have href : ∀ n ∈ l, v.ref_cnt s₁ n.1 = v.ref_cnt s n.1 := by
    intro n hn
    apply htakes.ref_cnt
    rw [htakes.placed]
    simpa using hl n hn
  have hleast := @leastRecent_congr σ ρ β v s s₁ l href k
  have hremain := @remaining_congr σ ρ β _ v s s₁ l href k
  refine ⟨h.inv, hleast ▸ h.count, ?_, hremain ▸ h.lists, ?_⟩
  · have htrans := htakes.trans h.takes
    rwa [nil_append, hleast] at htrans
  · intro hbudget n hn
    rw [← href n (mem_of_mem_filter hn)]
    apply h.budget hbudget
    rwa [hremain]

omit [DecidableEq β] in
theorem EvictsFirst.after_move {s₁ : σ} (hl : ∀ n ∈ us ++ ws, (v.placed s₁ n.1).isSome)
    (hrows : ((us ++ w :: ws).map Prod.fst).Nodup) (hus : ∀ n ∈ us, 0 < v.ref_cnt s n.1)
    (hzero : v.ref_cnt s w.1 = 0) (htakes : v.Takes s s₁ [w.1])
    (h : EvictsFirst v under_budget (moved + 1) s₁ (us ++ ws) k s' t') :
    EvictsFirst v under_budget moved s (us ++ w :: ws) (k + 1) s' t' := by
  have href : ∀ n ∈ us ++ ws, v.ref_cnt s₁ n.1 = v.ref_cnt s n.1 :=
    fun n hn => htakes.ref_cnt n.1 (hl n hn)
  have hleast := @leastRecent_congr σ ρ β v s s₁ (us ++ ws) href k
  have hremain := @remaining_congr σ ρ β _ v s s₁ (us ++ ws) href k
  have hsucc := @leastRecent_succ σ ρ β v s us ws w hus hzero k
  have hrest := @remaining_succ σ ρ β _ v s us ws w hrows hus hzero k
  refine ⟨h.inv, ?_, ?_, ?_, ?_⟩
  · rw [hsucc, ← hleast, length_cons, h.count]
  · have htrans := htakes.trans h.takes
    rwa [hleast, singleton_append, ← hsucc] at htrans
  · rw [hrest, ← hremain]
    exact h.lists
  · intro hbudget n hn
    rw [hrest] at hn
    rw [← href n (mem_of_mem_filter hn)]
    apply h.budget
    · rwa [add_assoc, add_comm 1 k]
    · rwa [hremain]

end Outcome

theorem exists_evictsFirst (hE : Evicts v callbacks) (n : Nat) :
    ∀ (us ws : List (ρ × β)) (moved : Nat) (s : σ) (t : LRUTracker ρ (ρ × β)),
      (us ++ ws).length = n → v.inv s → t.Lists (v.placed s) (us ++ ws) →
      (∀ n ∈ us, 0 < v.ref_cnt s n.1) → t.get_next_victim.cur_victim = ws.head? →
      ∃ fuel k s' t' ret, (∀ more, moveOutLoop callbacks under_budget (fuel + more) moved s t
          = .ok (s', t', ret)) ∧
        EvictsFirst v under_budget moved s (us ++ ws) k s' t' := by
  induction n using Nat.strong_induction_on with
  | _ n ihn =>
    intro us ws
    induction ws generalizing us with
    | nil =>
      intro moved s t _ hinv ht hus hvictim
      refine ⟨1, 0, s, t.get_next_victim, false, ?_, hinv, rfl, .refl v s, ?_, ?_⟩
      · intro more
        rw [add_comm]
        simp only [moveOutLoop, hvictim, List.head?_nil]
      · rw [remaining_zero]
        exact ht.victim
      · intro _ n hn
        rw [remaining_zero, append_nil] at hn
        exact hus n hn
    | cons w ws ih =>
      intro moved s t hlen hinv ht hus hvictim
      have hw : w ∈ us ++ w :: ws := by simp
      have hplaced : ∀ n ∈ us ++ w :: ws, (v.placed s n.1).isSome :=
        fun n hn => isSome_of_mem ht hn
      by_cases hzero : v.ref_cnt s w.1 = 0
      · obtain ⟨s₁, t₁, hinv₁, htakes, ht₁, hcur, heq⟩ :=
          @turn_moves σ ρ β _ _ callbacks v under_budget s t us ws w hE hinv ht hvictim hzero
        have hplaced₁ : ∀ n ∈ us ++ ws, (v.placed s₁ n.1).isSome :=
          fun n hn => isSome_of_mem ht₁ hn
        by_cases hbudget : under_budget (moved + 1) = true
        · -- one row was enough
          refine ⟨1, 1, s₁, t₁, true, ?_, ?_⟩
          · intro more
            rw [add_comm, heq, if_pos hbudget]
          · have hdone : EvictsFirst v under_budget (moved + 1) s₁ (us ++ ws) 0 s₁ t₁ := by
              refine ⟨hinv₁, rfl, .refl v s₁, ?_, ?_⟩
              · rw [remaining_zero]
                exact ht₁
              · intro hfalse
                rw [add_zero, hbudget] at hfalse
                cases hfalse
            exact hdone.after_move hplaced₁ ht.rows.rows.1 hus hzero htakes
        · have hlen₁ : (us ++ ws).length < n := by
            rw [← hlen]
            simp
          have hhead : t₁.get_next_victim.cur_victim = (us ++ ws).head? := by
            rw [LRUTracker.get_next_victim]
            simp only [hcur]
            exact ht₁.spells.head
          obtain ⟨fuel, k, s', t', ret, hrun, hout⟩ :=
            ihn _ hlen₁ [] (us ++ ws) (moved + 1) s₁ t₁ rfl hinv₁ ht₁ (by simp) hhead
          refine ⟨fuel + 1, k + 1, s', t', ret, ?_, ?_⟩
          · intro more
            rw [add_right_comm, heq, if_neg hbudget, hrun]
          · exact hout.after_move hplaced₁ ht.rows.rows.1 hus hzero htakes
      · obtain ⟨s₁, hinv₁, htakes, ht₁, heq⟩ :=
          @turn_refuses σ ρ β _ _ callbacks v under_budget s t _ w hE hinv ht hvictim hw
            (by omega)
        have hnext : t.get_next_victim.get_next_victim.cur_victim = ws.head? := by
          rw [LRUTracker.get_next_victim]
          simp only [hvictim, List.head?_cons]
          exact ht.spells.next_eq
        have hus₁ : ∀ n ∈ us ++ [w], 0 < v.ref_cnt s₁ n.1 := by
          intro n hn
          have hmem : n ∈ us ++ w :: ws := by
            rw [append_cons]
            exact mem_append_left _ hn
          rw [htakes.ref_cnt n.1 (isSome_of_mem ht₁ hmem)]
          rcases mem_append.mp hn with hn | hn
          · exact hus n hn
          · rw [mem_singleton.mp hn]
            omega
        rw [append_cons] at hlen ht₁
        obtain ⟨fuel, k, s', t', ret, hrun, hout⟩ :=
          ih (us ++ [w]) moved s₁ _ hlen hinv₁ ht₁ hus₁ hnext
        rw [← append_cons] at hout
        refine ⟨fuel + 1, k, s', t', ret, ?_, hout.after_refusal hplaced htakes⟩
        intro more
        rw [add_right_comm, heq, hrun]

-- A move-out returns, and takes the least recently used rows that have no reference.
theorem move_row_out_takes_least_recent (v : View σ ρ β) (callbacks : Callbacks σ ρ (ρ × β))
    (hE : Evicts v callbacks) (under_budget : Nat → Bool) (s : σ) (t : LRUTracker ρ (ρ × β))
    (l : List (ρ × β)) (hinv : v.inv s) (hcur : t.cur_victim = none)
    (ht : t.Lists (v.placed s) l) :
    ∃ fuel k s' t' ret, (∀ more, move_row_out callbacks under_budget (fuel + more) s t
        = .ok (s', t', ret)) ∧
      (leastRecent v s l k).length = k ∧ v.Takes s s' (leastRecent v s l k) ∧
      t'.cur_victim = none ∧ t'.Lists (v.placed s') (remaining v s l k) ∧
      (under_budget k = false → ∀ n ∈ remaining v s l k, 0 < v.ref_cnt s' n.1) := by
  by_cases hbudget : under_budget 0 = true
  · refine ⟨0, 0, s, t, false, fun more => if_pos hbudget, rfl, .refl v s, hcur, ?_, ?_⟩
    · rw [remaining_zero]
      exact ht
    · intro hfalse
      rw [hbudget] at hfalse
      cases hfalse
  · have hhead : t.get_next_victim.cur_victim = l.head? := by
      rw [LRUTracker.get_next_victim]
      simp only [hcur]
      exact ht.spells.head
    obtain ⟨fuel, k, s', t', ret, hrun, hout⟩ :=
      @exists_evictsFirst σ ρ β _ _ callbacks v under_budget hE l.length [] l 0 s t rfl hinv ht
        (by simp) hhead
    refine ⟨fuel, k, s', t'.reset_cur_victim, ret, ?_, hout.count, hout.takes, rfl,
      ⟨hout.lists.spells, hout.lists.rows, hout.lists.entity⟩, ?_⟩
    · intro more
      rw [move_row_out, if_neg hbudget, hrun]
      rfl
    · intro hfalse n hn
      rw [hout.takes.ref_cnt n.1 (isSome_of_mem hout.lists hn)]
      apply hout.budget _ n hn
      rwa [zero_add]

end Tigon.Pasha.PolicyLRU
