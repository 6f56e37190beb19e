import Tigon.Pasha.PolicyClock

namespace Tigon.Pasha

open Function List Tigon.Library
open TwoPLPasha (migration_result)
open MigrationManager

namespace ClockTracker

variable {ρ β : Type}

-- The list has one node for every row that is placed, and the cursor is on one of them.
structure Lists (t : ClockTracker ρ (ρ × β)) (placed : ρ → Option β) (l : List (Nat × ρ × β)) :
    Prop where
  spells : t.list.Spells (l.map Prod.fst)
  rows : Enumerates (l.map Prod.snd) placed
  node : ∀ e ∈ l, t.nodes[e.1]? = some ⟨e.2.1, some e.2⟩
  cursor : ∀ i ∈ t.cursor, i ∈ l.map Prod.fst

def Tracks (t : ClockTracker ρ (ρ × β)) (placed : ρ → Option β) : Prop :=
  ∃ l, t.Lists placed l

variable {t : ClockTracker ρ (ρ × β)} {placed : ρ → Option β} {l us vs : List (Nat × ρ × β)}
  {e : Nat × ρ × β}

theorem Lists.exists_forward (h : t.Lists placed l) :
    ∃ us ws, l = us ++ ws ∧ t.move_forward_and_get_cursor.cursor = (ws.map Prod.fst).head? := by
  cases hcursor : t.cursor with
  | none =>
    refine ⟨[], l, rfl, ?_⟩
    simp only [move_forward_and_get_cursor, hcursor]
    exact h.spells.head
  | some i =>
    obtain ⟨e, he, rfl⟩ := mem_map.mp (h.cursor i hcursor)
    obtain ⟨us, ws, rfl⟩ := append_of_mem he
    refine ⟨us ++ [e], ws, append_cons .., ?_⟩
    have hspells := h.spells
    rw [map_append, map_cons] at hspells
    simp only [move_forward_and_get_cursor, hcursor]
    exact hspells.next_eq

theorem Lists.forward (h : t.Lists placed l) : t.move_forward_and_get_cursor.Lists placed l := by
  refine ⟨h.spells, h.rows, h.node, fun i hi => ?_⟩
  obtain ⟨us, ws, rfl, hcursor⟩ := h.exists_forward
  have hmem : i ∈ ws.map Prod.fst := mem_of_mem_head? (hcursor ▸ hi)
  rw [map_append]
  exact mem_append_right _ hmem

theorem Lists.untrack [DecidableEq ρ] (h : t.Lists placed (us ++ e :: vs))
    (hcursor : t.cursor = some e.1) :
    ∃ t', t.move_forward_and_get_cursor.untrack e.1 = some t' ∧
      t'.Lists (update placed e.2.1 none) (us ++ vs) := by
  have hspells := h.spells
  have hrows := h.rows
  rw [map_append, map_cons] at hspells hrows
  obtain ⟨list, hremove, hspells', -⟩ := hspells.remove
  refine ⟨{ t.move_forward_and_get_cursor with list := list }, ?_, ?_, ?_, ?_, ?_⟩
  · rw [ClockTracker.untrack]
    exact congrArg _ hremove
  · rw [map_append]
    exact hspells'
  · rw [map_append]
    exact hrows.erase
  · intro d hd
    exact h.node d (perm_middle.mem_iff.mpr (mem_cons_of_mem _ hd))
  · intro i hi
    simp only [move_forward_and_get_cursor, hcursor, hspells.next_eq] at hi
    rw [map_append]
    exact mem_append_right _ (mem_of_mem_head? hi)

theorem Lists.setSecondChance [DecidableEq (ρ × β)] (h : t.Lists placed l) (clock_meta : ρ × β)
    (value : UInt8) : (t.setSecondChance clock_meta value).Lists placed l :=
  ⟨h.spells, h.rows, h.node, h.cursor⟩

theorem Lists.track [DecidableEq ρ] {row : ρ} {block : β} (h : t.Lists placed l)
    (hnot : placed row = none) :
    ∃ t', (t.newNode ⟨row, some (row, block)⟩).track t.nodes.length = some t' ∧
      t'.Lists (update placed row (some block))
        (l ++ [(t.nodes.length, row, block)]) := by
  have hold : ∀ e ∈ l, e.1 < t.nodes.length := fun e he =>
    (List.getElem?_eq_some_iff.mp (h.node e he)).1
  have hfresh : t.nodes.length ∉ l.map Prod.fst := by
    intro hmem
    obtain ⟨e, he, heq⟩ := mem_map.mp hmem
    have hlt := hold e he
    omega
  obtain ⟨list, hpush, hspells⟩ :=
    (h.spells.detach hfresh).pushBack hfresh (update_self ..)
  refine ⟨{ t.newNode ⟨row, some (row, block)⟩ with list := list }, ?_, ?_, ?_, ?_, ?_⟩
  · rw [ClockTracker.track]
    exact congrArg _ hpush
  · rw [map_append]
    exact hspells
  · rw [map_append]
    exact h.rows.push hnot
  · intro e he
    change (t.nodes ++ [_])[e.1]? = _
    rcases mem_append.mp he with he | he
    · rw [List.getElem?_append_left (hold e he)]
      exact h.node e he
    · rw [mem_singleton.mp he, List.getElem?_concat_length]
  · intro i hi
    rw [map_append]
    exact mem_append_left _ (h.cursor i hi)

end ClockTracker

namespace PolicyClock

variable {σ ρ β : Type} [DecidableEq ρ] [DecidableEq β] {t : ClockTracker ρ (ρ × β)}
  {callbacks : Callbacks σ ρ (ρ × β)} {inv : σ → Prop} {placed : σ → ρ → Option β}
  {under_budget : Nat → Bool}

-- What one turn of the loop does with the node under the cursor: it stays and the loop goes on,
-- or its row leaves and the cursor with it.
inductive Turns (callbacks : Callbacks σ ρ (ρ × β)) (under_budget : Nat → Bool) (s s' : σ)
    (t t' : ClockTracker ρ (ρ × β)) (placed : ρ → Option β) (us ws : List (Nat × ρ × β))
    (e : Nat × ρ × β) : Prop
  | stays (hlists : t'.Lists placed (us ++ e :: ws)) (hcursor : t'.cursor = some e.1)
      (heq : ∀ fuel moved, moveOutLoop callbacks under_budget (fuel + 1) moved s t
        = moveOutLoop callbacks under_budget fuel moved s' t')
  | leaves (hlists : t'.Lists placed (us ++ ws))
      (heq : ∀ fuel moved, moveOutLoop callbacks under_budget (fuel + 1) moved s t
        = if under_budget (moved + 1) then .ok (s', t', true)
          else moveOutLoop callbacks under_budget fuel (moved + 1) s' t')

theorem exists_turn (hcallbacks : TakesAway inv placed callbacks) {s : σ}
    {us ws : List (Nat × ρ × β)} {e : Nat × ρ × β} (hinv : inv s)
    (hlists : t.Lists (placed s) (us ++ e :: ws))
    (hcursor : t.move_forward_and_get_cursor.cursor = some e.1) :
    ∃ s' t', MovesOut callbacks s s' ∧ inv s' ∧
      Turns callbacks under_budget s s' t t' (placed s') us ws e := by
  have hmem : e ∈ us ++ e :: ws := by simp
  have hnode : t.move_forward_and_get_cursor.nodes[e.1]? = some ⟨e.2.1, some e.2⟩ :=
    hlists.node e hmem
  by_cases hchance : t.move_forward_and_get_cursor.second_chance e.2 = 1
  · refine ⟨s, _, .refl, hinv,
      .stays (hlists.forward.setSecondChance e.2 0) hcursor fun fuel moved => ?_⟩
    simp only [moveOutLoop, hcursor, hnode, if_pos hchance]
  · have hplaced : placed s e.2.1 = some e.2.2 :=
      (hlists.rows.mem e.2).mp (mem_map_of_mem hmem)
    obtain ⟨hinv', hplaced'⟩ := hcallbacks s e.2.1 hinv (by rw [hplaced]; rfl)
    cases hmove : callbacks.move_from_shared_region_to_partition e.2.1 s with
    | mk s' success =>
      rw [hmove] at hinv' hplaced'
      have hmoves : MovesOut callbacks s s' := .single ⟨e.2.1, by rw [hmove]⟩
      cases success with
      | false =>
        refine ⟨s', _, hmoves, hinv', .stays ?_ hcursor fun fuel moved => ?_⟩
        · rw [hplaced']
          exact hlists.forward
        · simp only [moveOutLoop, hcursor, hnode, if_neg hchance, hmove]
      | true =>
        obtain ⟨t', huntrack, hlists'⟩ := hlists.forward.untrack hcursor
        refine ⟨s', t', hmoves, hinv', .leaves ?_ fun fuel moved => ?_⟩
        · rw [hplaced']
          exact hlists'
        · simp only [moveOutLoop, hcursor, hnode, if_neg hchance, hmove, huntrack]

theorem moveOutLoop_follows (hcallbacks : TakesAway inv placed callbacks) (fuel : Nat) :
    ∀ (moved : Nat) (s : σ) (t : ClockTracker ρ (ρ × β)), inv s → t.Tracks (placed s) →
      moveOutLoop callbacks under_budget fuel moved s t = .error .fuel ∨
        ∃ s' t' ret, moveOutLoop callbacks under_budget fuel moved s t = .ok (s', t', ret) ∧
          MovesOut callbacks s s' ∧ inv s' ∧ t'.Tracks (placed s') := by
  induction fuel with
  | zero => exact fun _ _ _ _ _ => .inl rfl
  | succ fuel ih =>
    rintro moved s t hinv ⟨l, hlists⟩
    obtain ⟨us, ws, rfl, hcursor⟩ := hlists.exists_forward
    cases ws with
    | nil =>
      refine .inr ⟨s, t.move_forward_and_get_cursor, false, ?_, .refl, hinv, us ++ [],
        hlists.forward⟩
      simp only [moveOutLoop, hcursor, map_nil, List.head?_nil]
    | cons e ws =>
      obtain ⟨s', t', hmoves, hinv', hturn⟩ := exists_turn hcallbacks hinv hlists hcursor
      cases hturn with
      | stays hlists' _ heq =>
        rw [heq]
        refine (ih moved s' t' hinv' ⟨_, hlists'⟩).imp_right ?_
        rintro ⟨s'', t'', ret, hres, hmoves', hrest⟩
        exact ⟨s'', t'', ret, hres, hmoves.trans hmoves', hrest⟩
      | leaves hlists' heq =>
        rw [heq]
        split
        · exact .inr ⟨s', t', true, rfl, hmoves, hinv', _, hlists'⟩
        · refine (ih (moved + 1) s' t' hinv' ⟨_, hlists'⟩).imp_right ?_
          rintro ⟨s'', t'', ret, hres, hmoves', hrest⟩
          exact ⟨s'', t'', ret, hres, hmoves.trans hmoves', hrest⟩

theorem manager_follows :
    (manager : MigrationManager σ ρ (ρ × β) (ClockTracker ρ (ρ × β))).Follows ClockTracker.Tracks
      (fun _ _ => True) (fun placed row => placed row = none) where
  access_row := by
    rintro t placed n ⟨l, hlists⟩ -
    exact ⟨_, rfl, l, hlists.setSecondChance n 1⟩
  move_row_in := by
    intro callbacks row inc s s' res n t placed placed' ht hmove hplaces
    change ∃ p', move_row_in callbacks row inc s t = _ ∧ _
    rw [move_row_in, hmove]
    cases hplaces with
    | already hplaced | outOfMemory hplaced => exact ⟨t, rfl, hplaced ▸ ht⟩
    | @success block hnot hplaced =>
      obtain ⟨l, hlists⟩ := ht
      have hinit := hlists.setSecondChance (row, block) 0
      obtain ⟨t', htrack, hlists'⟩ := @ClockTracker.Lists.track _ _ _ _ _ _ row block hinit hnot
      refine ⟨t', ?_, _, hplaced ▸ hlists'⟩
      simp only [init_migration_policy_metadata, htrack]
      rfl
  move_row_out := by
    intro callbacks under_budget fuel s t inv placed hcallbacks hinv ht
    change move_row_out callbacks under_budget fuel s t = _ ∨
      ∃ s' p' ret, move_row_out callbacks under_budget fuel s t = _ ∧ _
    rw [move_row_out]
    split
    · exact .inr ⟨s, t, false, rfl, .refl, hinv, ht⟩
    · exact moveOutLoop_follows hcallbacks fuel 0 s t hinv ht
  delete_specific_row_and_move_out := by
    intro callbacks row is_local s s' t placed ht hdelete hnone
    change ∃ p', delete_specific_row_and_move_out callbacks row is_local s t = _ ∧ _
    rw [delete_specific_row_and_move_out, hdelete, hnone]
    refine ⟨t, rfl, ?_⟩
    rw [← hnone, update_eq_self]
    exact ht

end PolicyClock

end Tigon.Pasha
