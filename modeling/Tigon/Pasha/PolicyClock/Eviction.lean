import Tigon.Pasha.Eviction
import Tigon.Pasha.PolicyClock.Sweep
import Tigon.Pasha.PolicyClock.Tracking

namespace Tigon.Pasha.PolicyClock

open List ClockTracker

open Tigon.Library MigrationManager

variable {σ ρ β : Type} [DecidableEq ρ] [DecidableEq β] {callbacks : Callbacks σ ρ (ρ × β)}
  {v : View σ ρ β} {under_budget : Nat → Bool} {due : ρ × β → Bool} {s s' : σ}
  {t t' : ClockTracker ρ (ρ × β)} {l us ws : List (Nat × ρ × β)} {e : Nat × ρ × β} {moved : Nat}

def trackedRow (v : View σ ρ β) (due : ρ × β → Bool) (s : σ) (t : ClockTracker ρ (ρ × β))
    (e : Nat × ρ × β) : TrackedRow :=
  ⟨decide (t.second_chance e.2 = 1), decide (v.ref_cnt s e.2.1 ≠ 0), due e.2⟩

-- The loop comes back with a result, however many turns it is allowed beyond those it needs.
def Returns (callbacks : Callbacks σ ρ (ρ × β)) (under_budget : Nat → Bool) (moved : Nat) (s : σ)
    (t : ClockTracker ρ (ρ × β)) (res : σ × ClockTracker ρ (ρ × β) × Bool) : Prop :=
  ∃ fuel, ∀ more, moveOutLoop callbacks under_budget (fuel + more) moved s t = .ok res

theorem Returns.unique {res res' : σ × ClockTracker ρ (ρ × β) × Bool}
    (h : Returns callbacks under_budget moved s t res)
    (h' : Returns callbacks under_budget moved s t res') : res = res' := by
  obtain ⟨fuel, hfuel⟩ := h
  obtain ⟨fuel', hfuel'⟩ := h'
  have heq := hfuel fuel'
  rw [add_comm, hfuel'] at heq
  exact (Except.ok.inj heq).symm

theorem Returns.turn {moved' : Nat} {res : σ × ClockTracker ρ (ρ × β) × Bool}
    (heq : ∀ fuel, moveOutLoop callbacks under_budget (fuel + 1) moved s t
      = moveOutLoop callbacks under_budget fuel moved' s' t')
    (h : Returns callbacks under_budget moved' s' t' res) :
    Returns callbacks under_budget moved s t res := by
  obtain ⟨fuel, hfuel⟩ := h
  refine ⟨fuel + 1, fun more => ?_⟩
  rw [add_right_comm, heq, hfuel]

section Turns

section

omit [DecidableEq ρ] [DecidableEq β]

theorem isSome_of_mem (ht : t.Lists (v.placed s) l) (he : e ∈ l) :
    (v.placed s e.2.1).isSome := by
  rw [(ht.rows.mem e.2).mp (mem_map_of_mem he)]
  rfl

theorem ne_of_lists (ht : t.Lists (v.placed s) (us ++ e :: ws)) {d : Nat × ρ × β}
    (hd : d ∈ us ++ ws) : d.2 ≠ e.2 := by
  have hnot := ht.rows
  rw [map_append, map_cons] at hnot
  intro heq
  apply hnot.not_mem
  rw [← heq, ← map_append]
  exact mem_map_of_mem hd

end

theorem turn_chance (ht : t.Lists (v.placed s) (us ++ e :: ws))
    (hcursor : t.move_forward_and_get_cursor.cursor = some e.1)
    (hchance : t.second_chance e.2 = 1) :
    (t.move_forward_and_get_cursor.setSecondChance e.2 0).Lists (v.placed s) (us ++ e :: ws) ∧
      ∀ fuel, moveOutLoop callbacks under_budget (fuel + 1) moved s t
        = moveOutLoop callbacks under_budget fuel moved s
          (t.move_forward_and_get_cursor.setSecondChance e.2 0) := by
  have hnode : t.move_forward_and_get_cursor.nodes[e.1]? = some ⟨e.2.1, some e.2⟩ :=
    ht.node e (by simp)
  have hflag : t.move_forward_and_get_cursor.second_chance e.2 = 1 := hchance
  refine ⟨ht.forward.setSecondChance e.2 0, fun fuel => ?_⟩
  simp only [moveOutLoop, hcursor, hnode, if_pos hflag]

theorem turn_refuses (hE : Evicts v callbacks) (hinv : v.inv s)
    (ht : t.Lists (v.placed s) (us ++ e :: ws))
    (hcursor : t.move_forward_and_get_cursor.cursor = some e.1)
    (hchance : t.second_chance e.2 ≠ 1) (hpos : 0 < v.ref_cnt s e.2.1) :
    ∃ s', v.inv s' ∧ v.Takes s s' [] ∧
      t.move_forward_and_get_cursor.Lists (v.placed s') (us ++ e :: ws) ∧
      ∀ fuel, moveOutLoop callbacks under_budget (fuel + 1) moved s t
        = moveOutLoop callbacks under_budget fuel moved s' t.move_forward_and_get_cursor := by
  have hmem : e ∈ us ++ e :: ws := by simp
  have hnode : t.move_forward_and_get_cursor.nodes[e.1]? = some ⟨e.2.1, some e.2⟩ :=
    ht.node e hmem
  have hflag : ¬ t.move_forward_and_get_cursor.second_chance e.2 = 1 := hchance
  obtain ⟨s', hmove, hinv', htakes⟩ := hE.refuses s e.2.1 hinv (isSome_of_mem ht hmem) hpos
  have hplaced : v.placed s' = v.placed s := funext fun row => by simp [htakes.placed]
  refine ⟨s', hinv', htakes, ?_, fun fuel => ?_⟩
  · rw [hplaced]
    exact ht.forward
  · simp only [moveOutLoop, hcursor, hnode, if_neg hflag, hmove]

theorem turn_moves (hE : Evicts v callbacks) (hinv : v.inv s)
    (ht : t.Lists (v.placed s) (us ++ e :: ws))
    (hcursor : t.move_forward_and_get_cursor.cursor = some e.1)
    (hchance : t.second_chance e.2 ≠ 1) (hzero : v.ref_cnt s e.2.1 = 0) :
    ∃ s' t', v.inv s' ∧ v.Takes s s' [e.2.1] ∧ t'.Lists (v.placed s') (us ++ ws) ∧
      t'.second_chance = t.second_chance ∧ t'.cursor = (ws.map Prod.fst).head? ∧
      ∀ fuel, moveOutLoop callbacks under_budget (fuel + 1) moved s t
        = if under_budget (moved + 1) then .ok (s', t', true)
          else moveOutLoop callbacks under_budget fuel (moved + 1) s' t' := by
  have hmem : e ∈ us ++ e :: ws := by simp
  have hnode : t.move_forward_and_get_cursor.nodes[e.1]? = some ⟨e.2.1, some e.2⟩ :=
    ht.node e hmem
  have hflag : ¬ t.move_forward_and_get_cursor.second_chance e.2 = 1 := hchance
  obtain ⟨s', hmove, hinv', htakes⟩ := hE.moves s e.2.1 hinv (isSome_of_mem ht hmem) hzero
  have hplaced : v.placed s' = Function.update (v.placed s) e.2.1 none := by
    funext row
    by_cases hrow : row = e.2.1
    · simp [htakes.placed, hrow]
    · simp [htakes.placed, hrow]
  obtain ⟨t', huntrack, hlists⟩ := ht.forward.untrack hcursor
  have hspells := ht.spells
  rw [map_append, map_cons] at hspells
  have hcursor' : t.move_forward_and_get_cursor.move_forward_and_get_cursor.cursor
      = (ws.map Prod.fst).head? := by
    rw [move_forward_and_get_cursor]
    simp only [hcursor]
    exact hspells.next_eq
  have huntracked := huntrack
  obtain ⟨list, -, rfl⟩ := Option.map_eq_some_iff.mp huntracked
  refine ⟨s', { t.move_forward_and_get_cursor.move_forward_and_get_cursor with list := list },
    hinv', htakes, hplaced ▸ hlists, rfl, hcursor', fun fuel => ?_⟩
  simp only [moveOutLoop, hcursor, hnode, if_neg hflag, hmove, huntrack]

end Turns

-- The outcome of a loop that has moved out `moved` rows before and has still to read `ws`.
structure Sweeps (v : View σ ρ β) (due : ρ × β → Bool) (under_budget : Nat → Bool) (moved : Nat)
    (s : σ) (t : ClockTracker ρ (ρ × β)) (us ws : List (Nat × ρ × β)) (s' : σ)
    (t' : ClockTracker ρ (ρ × β)) (ret : Bool) (taken : List ρ) (l' : List (Nat × ρ × β)) :
    Prop where
  inv : v.inv s'
  takes : v.Takes s s' taken
  lists : t'.Lists (v.placed s') l'
  enough : ret = true → under_budget (moved + taken.length) = true
  swept : ret = false → SweptFrom (us.map (trackedRow v due s t)) (ws.map (trackedRow v due s t))
    (l'.map (trackedRow v due s' t'))

section Outcome

variable {us₁ ws₁ l' : List (Nat × ρ × β)} {s₁ : σ} {t₁ : ClockTracker ρ (ρ × β)}
  {taken taken₁ : List ρ} {ret : Bool}

section

omit [DecidableEq β]

theorem Sweeps.after (htakes : v.Takes s s₁ taken₁)
    (hread : ∀ rows', SweptFrom (us₁.map (trackedRow v due s₁ t₁))
      (ws₁.map (trackedRow v due s₁ t₁)) rows' →
      SweptFrom (us.map (trackedRow v due s t)) (ws.map (trackedRow v due s t)) rows')
    (h : Sweeps v due under_budget (moved + taken₁.length) s₁ t₁ us₁ ws₁ s' t' ret taken l') :
    Sweeps v due under_budget moved s t us ws s' t' ret (taken₁ ++ taken) l' where
  inv := h.inv
  takes := htakes.trans h.takes
  lists := h.lists
  enough := by
    rw [length_append, ← add_assoc]
    exact h.enough
  swept := fun hret => hread _ (h.swept hret)

theorem trackedRow_eq (htakes : v.Takes s s₁ taken) (hsome : (v.placed s₁ e.2.1).isSome)
    (hchance : t₁.second_chance e.2 = t.second_chance e.2) :
    trackedRow v due s₁ t₁ e = trackedRow v due s t e := by
  rw [trackedRow, trackedRow, htakes.ref_cnt e.2.1 hsome, hchance]

theorem map_trackedRow_eq (htakes : v.Takes s s₁ taken) (ht₁ : t₁.Lists (v.placed s₁) l')
    (hl : ∀ e ∈ l, e ∈ l') (hchance : ∀ e ∈ l, t₁.second_chance e.2 = t.second_chance e.2) :
    l.map (trackedRow v due s₁ t₁) = l.map (trackedRow v due s t) := by
  apply map_congr_left
  intro e he
  exact trackedRow_eq htakes (isSome_of_mem ht₁ (hl e he)) (hchance e he)

end

end Outcome

section Sweep

variable {s₁ : σ} {t₁ : ClockTracker ρ (ρ × β)}

omit [DecidableEq β] in
theorem sweptFrom_stays (ht : t.Lists (v.placed s) (us ++ e :: ws))
    (ht₁ : t₁.Lists (v.placed s₁) (us ++ e :: ws)) (htakes : v.Takes s s₁ [])
    (hread : trackedRow v due s₁ t₁ e = (trackedRow v due s t e).read)
    (hfree : (trackedRow v due s t e).free = false)
    (hchance : ∀ n, n ≠ e.2 → t₁.second_chance n = t.second_chance n) (rows' : List TrackedRow)
    (h : SweptFrom ((us ++ [e]).map (trackedRow v due s₁ t₁)) (ws.map (trackedRow v due s₁ t₁))
      rows') :
    SweptFrom (us.map (trackedRow v due s t)) ((e :: ws).map (trackedRow v due s t)) rows' := by
  have hus : us.map (trackedRow v due s₁ t₁) = us.map (trackedRow v due s t) :=
    map_trackedRow_eq htakes ht₁ (fun d hd => mem_append_left _ hd) fun d hd =>
      hchance d.2 (ne_of_lists ht (mem_append_left _ hd))
  have hws : ws.map (trackedRow v due s₁ t₁) = ws.map (trackedRow v due s t) :=
    map_trackedRow_eq htakes ht₁ (fun d hd => by simp [hd]) fun d hd =>
      hchance d.2 (ne_of_lists ht (mem_append_right _ hd))
  rw [map_append, map_singleton, hus, hws, hread] at h
  exact h.read hfree

theorem exists_sweeps (hE : Evicts v callbacks) (due : ρ × β → Bool) (n : Nat) :
    ∀ (us ws : List (Nat × ρ × β)) (moved : Nat) (s : σ) (t : ClockTracker ρ (ρ × β)),
      (us ++ ws).length = n → v.inv s → t.Lists (v.placed s) (us ++ ws) →
      t.move_forward_and_get_cursor.cursor = (ws.map Prod.fst).head? →
      ∃ s' t' ret taken l', Returns callbacks under_budget moved s t (s', t', ret) ∧
        Sweeps v due under_budget moved s t us ws s' t' ret taken l' := by
  induction n using Nat.strong_induction_on with
  | _ n ihn =>
    intro us ws
    induction ws generalizing us with
    | nil =>
      intro moved s t _ hinv ht hcursor
      refine ⟨s, t.move_forward_and_get_cursor, false, [], us ++ [], ⟨1, fun more => ?_⟩,
        hinv, .refl v s, ht.forward, Bool.false_ne_true.elim, fun _ => ?_⟩
      · rw [add_comm]
        simp only [moveOutLoop, hcursor, map_nil, List.head?_nil]
      · simp [SweptFrom, reading, trackedRow, move_forward_and_get_cursor]
    | cons e ws ih =>
      intro moved s t hlen hinv ht hcursor
      have hlen' : ((us ++ [e]) ++ ws).length = n := by
        rw [← append_cons, hlen]
      have hnext : ∀ t₁ : ClockTracker ρ (ρ × β), t₁.list = t.list →
          t₁.cursor = t.move_forward_and_get_cursor.cursor →
          t₁.move_forward_and_get_cursor.cursor = (ws.map Prod.fst).head? := by
        intro t₁ hlist hcur
        have hspells := ht.spells
        rw [map_append, map_cons] at hspells
        rw [move_forward_and_get_cursor]
        simp only [hcur, hcursor, map_cons, List.head?_cons, hlist]
        exact hspells.next_eq
      by_cases hchance : t.second_chance e.2 = 1
      · obtain ⟨ht₁, heq⟩ := @turn_chance σ ρ β _ _ callbacks v under_budget s t us ws e moved
          ht hcursor hchance
        have ht₁' := ht₁
        rw [append_cons] at ht₁'
        obtain ⟨s', t', ret, taken, l', hrun, hsweeps⟩ :=
          ih (us ++ [e]) moved s _ hlen' hinv ht₁' (hnext _ rfl rfl)
        refine ⟨s', t', ret, [] ++ taken, l', .turn heq hrun, hsweeps.after (.refl v s) ?_⟩
        apply sweptFrom_stays ht ht₁ (.refl v s)
        · simp [trackedRow, TrackedRow.read, setSecondChance]
        · simp [trackedRow, TrackedRow.free, hchance]
        · intro n hn
          exact Function.update_of_ne hn ..
      · by_cases hzero : v.ref_cnt s e.2.1 = 0
        · obtain ⟨s₁, t₁, hinv₁, htakes, ht₁, hflags, hcur, heq⟩ :=
            @turn_moves σ ρ β _ _ callbacks v under_budget s t us ws e moved hE hinv ht hcursor
              hchance hzero
          have hfree : (trackedRow v due s t e).free = true := by
            simp [trackedRow, TrackedRow.free, hchance, hzero]
          have hus : us.map (trackedRow v due s₁ t₁) = us.map (trackedRow v due s t) :=
            map_trackedRow_eq htakes ht₁ (fun d hd => mem_append_left _ hd)
              fun d _ => congrFun hflags d.2
          have hws : ws.map (trackedRow v due s₁ t₁) = ws.map (trackedRow v due s t) :=
            map_trackedRow_eq htakes ht₁ (fun d hd => mem_append_right _ hd)
              fun d _ => congrFun hflags d.2
          by_cases hbudget : under_budget (moved + 1) = true
          · refine ⟨s₁, t₁, true, [e.2.1], us ++ ws, ⟨1, fun more => ?_⟩, hinv₁, htakes, ht₁,
              fun _ => hbudget, Bool.noConfusion⟩
            rw [add_comm, heq, if_pos hbudget]
          · simp only [if_neg hbudget] at heq
            have hlen₁ : (us ++ ws).length < n := by
              rw [← hlen]
              simp
            cases ws with
            | nil =>
              -- the last row has left: the cursor is null, and the list is read again
              have hhead : t₁.move_forward_and_get_cursor.cursor
                  = (us.map Prod.fst).head? := by
                rw [move_forward_and_get_cursor]
                simp only [hcur, map_nil, List.head?_nil]
                rw [append_nil] at ht₁
                exact ht₁.spells.head
              rw [append_nil] at hlen₁ ht₁
              obtain ⟨s', t', ret, taken, l', hrun, hsweeps⟩ :=
                ihn _ hlen₁ [] us (moved + 1) s₁ t₁ rfl hinv₁ ht₁ hhead
              refine ⟨s', t', ret, [e.2.1] ++ taken, l', .turn heq hrun,
                hsweeps.after htakes fun rows' h => ?_⟩
              rw [hus] at h
              exact h.leave_last hfree
            | cons x ws =>
              have hspells := ht₁.spells
              rw [map_append, map_cons] at hspells
              have hskip : t₁.move_forward_and_get_cursor.cursor
                  = (ws.map Prod.fst).head? := by
                rw [move_forward_and_get_cursor]
                simp only [hcur, map_cons, List.head?_cons]
                exact hspells.next_eq
              rw [append_cons] at hlen₁ ht₁
              obtain ⟨s', t', ret, taken, l', hrun, hsweeps⟩ :=
                ihn _ hlen₁ (us ++ [x]) ws (moved + 1) s₁ t₁ rfl hinv₁ ht₁ hskip
              refine ⟨s', t', ret, [e.2.1] ++ taken, l', .turn heq hrun,
                hsweeps.after htakes fun rows' h => ?_⟩
              obtain ⟨hx, hws⟩ := List.cons.inj hws
              rw [map_append, map_singleton, hus, hws, hx] at h
              exact h.leave hfree
        · obtain ⟨s₁, hinv₁, htakes, ht₁, heq⟩ :=
            @turn_refuses σ ρ β _ _ callbacks v under_budget s t us ws e moved hE hinv ht hcursor
              hchance (by omega)
          have ht₁' := ht₁
          rw [append_cons] at ht₁'
          obtain ⟨s', t', ret, taken, l', hrun, hsweeps⟩ :=
            ih (us ++ [e]) moved s₁ _ hlen' hinv₁ ht₁' (hnext _ rfl rfl)
          refine ⟨s', t', ret, [] ++ taken, l', .turn heq hrun, hsweeps.after htakes ?_⟩
          apply sweptFrom_stays ht ht₁ htakes
          · have hsame : trackedRow v due s₁ t.move_forward_and_get_cursor e
                = trackedRow v due s t e :=
              trackedRow_eq htakes (isSome_of_mem ht₁ (by simp)) rfl
            rw [hsame]
            simp [trackedRow, TrackedRow.read, hchance]
          · simp [trackedRow, TrackedRow.free, hzero]
          · exact fun n _ => rfl

end Sweep

def Due (v : View σ ρ β) (s : σ) (t : ClockTracker ρ (ρ × β)) (n : ρ × β) : Prop :=
  t.second_chance n ≠ 1 ∧ v.ref_cnt s n.1 = 0

instance (v : View σ ρ β) (s : σ) (t : ClockTracker ρ (ρ × β)) : DecidablePred (Due v s t) :=
  fun _ => inferInstanceAs (Decidable (_ ∧ _))

def trackedRows (v : View σ ρ β) (s : σ) (t : ClockTracker ρ (ρ × β)) (l : List (Nat × ρ × β)) :
    List TrackedRow :=
  l.map (trackedRow v (fun n => decide (Due v s t n)) s t)

-- A move-out returns and takes only rows without a reference, each once, and if the budget is
-- still not met then no row that was due is left.
def SweepsOut (v : View σ ρ β) (callbacks : Callbacks σ ρ (ρ × β)) (under_budget : Nat → Bool)
    (s : σ) (t : ClockTracker ρ (ρ × β)) (l : List (Nat × ρ × β)) : Prop :=
  ∃ fuel s' t' ret taken l', (∀ more, move_row_out callbacks under_budget (fuel + more) s t
      = .ok (s', t', ret)) ∧
    v.Takes s s' taken ∧ t'.Lists (v.placed s') l' ∧
    (∀ e ∈ l, 0 < v.ref_cnt s e.2.1 → e.2 ∈ l'.map Prod.snd) ∧
    (under_budget taken.length = false → ∀ e ∈ l, Due v s t e.2 → v.placed s' e.2.1 = none)

section Call

variable {taken : List ρ} {l' : List (Nat × ρ × β)}

omit [DecidableEq β] in
theorem mem_of_placed (htakes : v.Takes s s' taken) (ht : t.Lists (v.placed s) l)
    (ht' : t'.Lists (v.placed s') l') (he : e ∈ l) (hsome : (v.placed s' e.2.1).isSome) :
    e.2 ∈ l'.map Prod.snd := by
  apply (ht'.rows.mem e.2).mpr
  rw [(htakes.not_mem hsome).2]
  exact (ht.rows.mem e.2).mp (mem_map_of_mem he)

omit [DecidableEq β] in
theorem due_left_iff (htakes : v.Takes s s' taken) (ht : t.Lists (v.placed s) l)
    (ht' : t'.Lists (v.placed s') l') :
    (∀ r ∈ l'.map (trackedRow v (fun n => decide (Due v s t n)) s' t'), r.due = false) ↔
      ∀ e ∈ l, Due v s t e.2 → v.placed s' e.2.1 = none := by
  constructor
  · intro hleft e he hdue
    by_contra hne
    have hmem := mem_of_placed htakes ht ht' he (Option.isSome_iff_ne_none.mpr hne)
    obtain ⟨e', he', heq⟩ := mem_map.mp hmem
    have hfalse := hleft _ (mem_map_of_mem he')
    simp only [trackedRow, heq, decide_eq_false_iff_not] at hfalse
    exact hfalse hdue
  · intro hgone r hr
    obtain ⟨e', he', rfl⟩ := mem_map.mp hr
    have hsome := isSome_of_mem ht' he'
    have hplaced := (ht'.rows.mem e'.2).mp (mem_map_of_mem he')
    rw [(htakes.not_mem hsome).2] at hplaced
    obtain ⟨e, he, heq⟩ := mem_map.mp ((ht.rows.mem e'.2).mpr hplaced)
    have hnot := hgone e he
    simp only [trackedRow, decide_eq_false_iff_not]
    intro hdue
    rw [heq] at hnot
    rw [hnot hdue] at hsome
    cases hsome

omit [DecidableEq ρ] [DecidableEq β] in
theorem dueFree_trackedRows : DueFree (trackedRows v s t l) := by
  intro r hr hdue
  obtain ⟨e, -, rfl⟩ := mem_map.mp hr
  obtain ⟨hflag, hzero⟩ := of_decide_eq_true hdue
  simp [trackedRow, TrackedRow.free, hflag, hzero]

end Call

section Call

variable (hE : Evicts v callbacks) (hinv : v.inv s) (hcur : t.cursor = none)
  (ht : t.Lists (v.placed s) l)

include hE hinv hcur ht

theorem exists_call (under_budget : Nat → Bool) :
    ∃ s' t' ret taken l', Returns callbacks under_budget 0 s t (s', t', ret) ∧
      Sweeps v (fun n => decide (Due v s t n)) under_budget 0 s t [] l s' t' ret taken l' := by
  have hhead : t.move_forward_and_get_cursor.cursor = (l.map Prod.fst).head? := by
    rw [move_forward_and_get_cursor]
    simp only [hcur]
    exact ht.spells.head
  exact exists_sweeps hE _ l.length [] l 0 s t rfl hinv ht hhead

theorem clean_of_sweepsOut (h : SweepsOut v callbacks (fun _ => false) s t l) :
    Clean (trackedRows v s t l) := by
  obtain ⟨fuel, s', t', ret, taken, l', hrun, -, -, -, hgone⟩ := h
  obtain ⟨s₁, t₁, ret₁, taken₁, l₁, hrun₁, hsweeps⟩ := exists_call hE hinv hcur ht fun _ => false
  have heq := Returns.unique hrun₁ ⟨fuel, hrun⟩
  simp only [Prod.mk.injEq] at heq
  obtain ⟨rfl, rfl, rfl⟩ := heq
  have hret : ret₁ = false := eq_false_of_ne_true fun h => Bool.noConfusion (hsweeps.enough h)
  apply ((SweptFrom.nil_iff.mp (hsweeps.swept hret)).clean_iff dueFree_trackedRows).mp
  rw [due_left_iff hsweeps.takes ht hsweeps.lists]
  exact hgone rfl

theorem sweepsOut_of_clean (hclean : Clean (trackedRows v s t l)) (under_budget : Nat → Bool) :
    SweepsOut v callbacks under_budget s t l := by
  by_cases hbudget : under_budget 0 = true
  · refine ⟨0, s, t, false, [], l, fun more => if_pos hbudget, .refl v s, ht,
      fun e he _ => mem_map_of_mem he, fun hfalse => ?_⟩
    rw [length_nil, hbudget] at hfalse
    cases hfalse
  · obtain ⟨s', t', ret, taken, l', ⟨fuel, hrun⟩, hsweeps⟩ :=
      exists_call hE hinv hcur ht under_budget
    refine ⟨fuel, s', t', ret, taken, l', fun more => ?_, hsweeps.takes, hsweeps.lists, ?_, ?_⟩
    · rw [move_row_out, if_neg hbudget, hrun]
    · intro e he hpos
      apply mem_of_placed hsweeps.takes ht hsweeps.lists he
      rw [hsweeps.takes.placed_of_pos hpos]
      exact isSome_of_mem ht he
    · intro hfalse
      cases ret with
      | true =>
        have henough := hsweeps.enough rfl
        rw [zero_add, hfalse] at henough
        cases henough
      | false =>
        rw [← due_left_iff hsweeps.takes ht hsweeps.lists]
        exact ((SweptFrom.nil_iff.mp (hsweeps.swept rfl)).clean_iff
          dueFree_trackedRows).mpr hclean

end Call

-- The rows that are due leave exactly if none of them stands behind a row that leaves.
theorem sweepsOut_iff_clean (v : View σ ρ β) (callbacks : Callbacks σ ρ (ρ × β))
    (hE : Evicts v callbacks) (s : σ) (t : ClockTracker ρ (ρ × β)) (l : List (Nat × ρ × β))
    (hinv : v.inv s) (hcur : t.cursor = none) (ht : t.Lists (v.placed s) l) :
    (∀ under_budget, SweepsOut v callbacks under_budget s t l) ↔ Clean (trackedRows v s t l) := by
  constructor
  · intro hall
    exact clean_of_sweepsOut hE hinv hcur ht (hall fun _ => false)
  · intro hclean under_budget
    exact sweepsOut_of_clean hE hinv hcur ht hclean under_budget

end Tigon.Pasha.PolicyClock
