import Tigon.Pasha.PolicyLRU

namespace Tigon.Pasha

open Function List Option Tigon.Library
open TwoPLPasha (migration_result)
open MigrationManager

namespace LRUTracker

variable {σ ρ β : Type}

-- The list has the block of every row that is placed and no other, and each knows its row.
structure Lists (t : LRUTracker ρ (ρ × β)) (placed : ρ → Option β) (l : List (ρ × β)) : Prop where
  spells : t.list.Spells l
  rows : Enumerates l placed
  entity : ∀ n ∈ l, t.row_entity_ptr n = some n.1

-- Between two sections there is no victim.
def Tracks (t : LRUTracker ρ (ρ × β)) (placed : ρ → Option β) : Prop :=
  t.cur_victim = none ∧ ∃ l, t.Lists placed l

variable [DecidableEq ρ] [DecidableEq β] {t : LRUTracker ρ (ρ × β)} {placed : ρ → Option β}
  {l us vs : List (ρ × β)} {row : ρ} {block : β} {n : ρ × β}

theorem Lists.untrack (h : t.Lists placed (us ++ n :: vs)) :
    ∃ list, t.untrack n = some { t with list := list } ∧
      { t with list := list }.Lists (update placed n.1 none) (us ++ vs) ∧
      list.next n = none ∧ list.prev n = none := by
  obtain ⟨list, hremove, hspells, hnext, hprev⟩ := h.spells.remove
  refine ⟨list, ?_, ⟨hspells, h.rows.erase, ?_⟩, hnext, hprev⟩
  · rw [LRUTracker.untrack, hremove]
    rfl
  · intro m hm
    exact h.entity m (perm_middle.mem_iff.mpr (mem_cons_of_mem _ hm))

theorem Lists.freeRowEntity (h : t.Lists placed l) (hn : n ∉ l) :
    (t.reset_cur_victim.freeRowEntity n).Lists placed l := by
  refine ⟨h.spells, h.rows, fun m hm => ?_⟩
  have hne : m ≠ n := ne_of_mem_of_not_mem hm hn
  exact (update_of_ne hne _ _).trans (h.entity m hm)

omit [DecidableEq ρ] [DecidableEq β] in
theorem Lists.victim (h : t.Lists placed l) : t.get_next_victim.Lists placed l :=
  ⟨h.spells, h.rows, h.entity⟩

theorem Lists.track (h : t.Lists placed l) (hnot : placed row = none)
    (hnext : t.list.next (row, block) = none) (hprev : t.list.prev (row, block) = none)
    (hentity : t.row_entity_ptr (row, block) = some row) :
    ∃ t', t.track (row, block) = some t' ∧
      t'.Lists (update placed row (some block)) (l ++ [(row, block)]) ∧
      t'.cur_victim = t.cur_victim := by
  obtain ⟨list, hpush, hspells⟩ := h.spells.pushBack (h.rows.not_mem_of_none hnot) hnext
  refine ⟨{ t with list := list }, ?_, ⟨hspells, h.rows.push hnot, ?_⟩, rfl⟩
  · rw [LRUTracker.track, if_pos ⟨hnext, hprev⟩, hpush]
    rfl
  · intro n hn
    rcases mem_append.mp hn with hn | hn
    · exact h.entity n hn
    · rw [mem_singleton.mp hn]
      exact hentity

theorem Lists.init (h : t.Lists placed l) (hnot : placed row = none) :
    (t.init_migration_policy_metadata (row, block) row).Lists placed l := by
  have hfresh : (row, block) ∉ l := h.rows.not_mem_of_none hnot
  refine ⟨h.spells.detach hfresh, h.rows, fun n hn => ?_⟩
  have hne : n ≠ (row, block) := ne_of_mem_of_not_mem hn hfresh
  exact (update_of_ne hne _ _).trans (h.entity n hn)

theorem Tracks.promote (h : t.Tracks placed) (hplaced : placed n.1 = some n.2) :
    ∃ t', t.promote n = some t' ∧ t'.Tracks placed := by
  obtain ⟨hvictim, l, hlists⟩ := h
  have hmem := (hlists.rows.mem n).mpr hplaced
  obtain ⟨us, vs, rfl⟩ := append_of_mem hmem
  obtain ⟨list, huntrack, hlists₁, hnext, hprev⟩ := hlists.untrack
  obtain ⟨t₂, htrack, hlists₂, hvictim₂⟩ :=
    hlists₁.track (update_self ..) hnext hprev (hlists.entity n hmem)
  rw [update_idem, ← hplaced, update_eq_self] at hlists₂
  refine ⟨t₂, ?_, hvictim₂.trans hvictim, _, hlists₂⟩
  rw [LRUTracker.promote, huntrack, bind_some]
  exact htrack

end LRUTracker

namespace PolicyLRU

variable {σ ρ β : Type} [DecidableEq ρ] [DecidableEq β] {t : LRUTracker ρ (ρ × β)}
  {callbacks : Callbacks σ ρ (ρ × β)} {inv : σ → Prop} {placed : σ → ρ → Option β}
  {under_budget : Nat → Bool}

omit [DecidableEq ρ] [DecidableEq β] in
theorem mem_of_victim {l : List (ρ × β)} {victim : ρ × β} (hspells : t.list.Spells l)
    (hcur : ∀ n ∈ t.cur_victim, n ∈ l) (hvictim : t.get_next_victim.cur_victim = some victim) :
    victim ∈ l := by
  rw [LRUTracker.get_next_victim] at hvictim
  cases hold : t.cur_victim with
  | none =>
    simp only [hold] at hvictim
    exact hspells.mem_of_head hvictim
  | some n =>
    simp only [hold] at hvictim
    exact hspells.mem_of_next (hcur n hold) hvictim

-- What one turn of the loop does with its victim: the row stays and the loop goes on behind it,
-- or the row leaves and the loop starts again.
inductive Turns (callbacks : Callbacks σ ρ (ρ × β)) (under_budget : Nat → Bool) (s s' : σ)
    (t : LRUTracker ρ (ρ × β)) (placed : ρ → Option β) (l : List (ρ × β)) (victim : ρ × β) : Prop
  | stays (hlists : t.get_next_victim.Lists placed l)
      (heq : ∀ fuel moved, moveOutLoop callbacks under_budget (fuel + 1) moved s t
        = moveOutLoop callbacks under_budget fuel moved s' t.get_next_victim)
  | leaves {us vs : List (ρ × β)} {t' : LRUTracker ρ (ρ × β)} (hl : l = us ++ victim :: vs)
      (hlists : t'.Lists placed (us ++ vs)) (hcur : t'.cur_victim = none)
      (heq : ∀ fuel moved, moveOutLoop callbacks under_budget (fuel + 1) moved s t
        = if under_budget (moved + 1) then .ok (s', t', true)
          else moveOutLoop callbacks under_budget fuel (moved + 1) s' t')

theorem exists_turn (hcallbacks : TakesAway inv placed callbacks) {s : σ} {l : List (ρ × β)}
    {victim : ρ × β} (hinv : inv s) (hlists : t.Lists (placed s) l)
    (hvictim : t.get_next_victim.cur_victim = some victim) (hmem : victim ∈ l) :
    ∃ s', MovesOut callbacks s s' ∧ inv s' ∧
      Turns callbacks under_budget s s' t (placed s') l victim := by
  have hplaced := (hlists.rows.mem victim).mp hmem
  have hentity : t.get_next_victim.row_entity_ptr victim = some victim.1 :=
    hlists.entity victim hmem
  obtain ⟨hinv', hplaced'⟩ := hcallbacks s victim.1 hinv (by rw [hplaced]; rfl)
  cases hmove : callbacks.move_from_shared_region_to_partition victim.1 s with
  | mk s' success =>
    rw [hmove] at hinv' hplaced'
    refine ⟨s', .single ⟨victim.1, by rw [hmove]⟩, hinv', ?_⟩
    cases success with
    | false =>
      refine .stays ?_ fun fuel moved => ?_
      · rw [hplaced']
        exact hlists.victim
      · simp only [moveOutLoop, hvictim, hentity, hmove]
    | true =>
      obtain ⟨us, vs, rfl⟩ := append_of_mem hmem
      obtain ⟨list, huntrack, hlists', -⟩ := hlists.victim.untrack
      have hfree := hlists'.freeRowEntity hlists.rows.not_mem
      refine .leaves rfl (by rw [hplaced']; exact hfree) rfl fun fuel moved => ?_
      simp only [moveOutLoop, hvictim, hentity, hmove, huntrack]

theorem moveOutLoop_follows (hcallbacks : TakesAway inv placed callbacks) (fuel : Nat) :
    ∀ (moved : Nat) (s : σ) (t : LRUTracker ρ (ρ × β)) (l : List (ρ × β)), inv s →
      t.Lists (placed s) l → (∀ n ∈ t.cur_victim, n ∈ l) →
      moveOutLoop callbacks under_budget fuel moved s t = .error .fuel ∨
        ∃ s' t' ret, moveOutLoop callbacks under_budget fuel moved s t = .ok (s', t', ret) ∧
          MovesOut callbacks s s' ∧ inv s' ∧ ∃ l', t'.Lists (placed s') l' := by
  induction fuel with
  | zero => exact fun _ _ _ _ _ _ _ => .inl rfl
  | succ fuel ih =>
    intro moved s t l hinv hlists hcur
    cases hvictim : t.get_next_victim.cur_victim with
    | none =>
      refine .inr ⟨s, t.get_next_victim, false, ?_, .refl, hinv, l, hlists.victim⟩
      simp only [moveOutLoop, hvictim]
    | some victim =>
      have hmem := mem_of_victim hlists.spells hcur hvictim
      obtain ⟨s', hmoves, hinv', hturn⟩ := exists_turn hcallbacks hinv hlists hvictim hmem
      cases hturn with
      | stays hlists' heq =>
        have hcur' : ∀ n ∈ t.get_next_victim.cur_victim, n ∈ l :=
          fun n hn => mem_of_victim hlists.spells hcur hn
        rw [heq]
        refine (ih moved s' _ l hinv' hlists' hcur').imp_right ?_
        rintro ⟨s'', t'', ret, hres, hmoves', hrest⟩
        exact ⟨s'', t'', ret, hres, hmoves.trans hmoves', hrest⟩
      | leaves hl hlists' hcur' heq =>
        rw [heq]
        split
        · exact .inr ⟨s', _, _, rfl, hmoves, hinv', _, hlists'⟩
        · refine (ih (moved + 1) s' _ _ hinv' hlists' (by simp [hcur'])).imp_right ?_
          rintro ⟨s'', t'', ret, hres, hmoves', hrest⟩
          exact ⟨s'', t'', ret, hres, hmoves.trans hmoves', hrest⟩

theorem manager_follows :
    (manager : MigrationManager σ ρ (ρ × β) (LRUTracker ρ (ρ × β))).Follows LRUTracker.Tracks
      (fun placed n => placed n.1 = some n.2) (fun _ _ => True) where
  access_row := by
    intro t placed n ht hplaced
    obtain ⟨t', hpromote, ht'⟩ := ht.promote hplaced
    refine ⟨t', ?_, ht'⟩
    change Stop.onNone (t.promote n) = _
    rw [hpromote]
    rfl
  move_row_in := by
    intro callbacks row inc s s' res n t placed placed' ht hmove hplaces
    change ∃ p', move_row_in callbacks row inc s t = _ ∧ _
    rw [move_row_in, hmove]
    cases hplaces with
    | already hplaced | outOfMemory hplaced => exact ⟨t, rfl, hplaced ▸ ht⟩
    | @success block hnot hplaced =>
      obtain ⟨hcur, l, hlists⟩ := ht
      have hinit : (t.init_migration_policy_metadata (row, block) row).Lists placed l :=
        hlists.init hnot
      obtain ⟨t', htrack, hlists', hcur'⟩ := hinit.track hnot (update_self ..)
        (update_self ..) (update_self ..)
      refine ⟨t', ?_, hcur'.trans hcur, _, hplaced ▸ hlists'⟩
      simp only [htrack]
      rfl
  move_row_out := by
    intro callbacks under_budget fuel s t inv placed hcallbacks hinv ht
    change move_row_out callbacks under_budget fuel s t = _ ∨
      ∃ s' p' ret, move_row_out callbacks under_budget fuel s t = _ ∧ _
    rw [move_row_out]
    split
    · exact .inr ⟨s, t, false, rfl, .refl, hinv, ht⟩
    · obtain ⟨hcur, l, hlists⟩ := ht
      have hloop :=
        @moveOutLoop_follows _ _ _ _ _ callbacks inv placed under_budget hcallbacks fuel 0
        s t l hinv hlists (by simp [hcur])
      rcases hloop with hfuel | ⟨s', t', ret, hres, hmoves, hinv', l', hlists'⟩
      · exact .inl (by rw [hfuel]; rfl)
      · exact .inr ⟨s', t'.reset_cur_victim, ret, by rw [hres]; rfl, hmoves, hinv', rfl, l',
          hlists'.spells, hlists'.rows, hlists'.entity⟩
  delete_specific_row_and_move_out := by
    intro callbacks row is_local s s' t placed ht hdelete _
    change ∃ p', delete_specific_row_and_move_out callbacks row is_local s t = _ ∧ _
    rw [delete_specific_row_and_move_out, hdelete]
    cases hplaced : placed row with
    | none =>
      refine ⟨t, rfl, ?_⟩
      rw [← hplaced, update_eq_self]
      exact ht
    | some block =>
      obtain ⟨hcur, l, hlists⟩ := ht
      obtain ⟨us, vs, rfl⟩ := append_of_mem ((hlists.rows.mem (row, block)).mpr hplaced)
      obtain ⟨list, huntrack, hlists', -⟩ := hlists.untrack
      refine ⟨{ t with list := list }, ?_, hcur, _, hlists'⟩
      simp only [isSome_some, map_some, bind_some, huntrack]
      rfl

end PolicyLRU

end Tigon.Pasha
