import Tigon.Common.MPSCRingBuffer.Entries
import Tigon.Library.Transition

namespace Tigon.Common

open Function List Tigon.Library Ticket

namespace MPSCRingBuffer

-- A call has a ticket, or it has failed, or it is still to have one of the two.
structure CallInv {P : Type} (s : State P) : Prop where
  issued_le : ∀ p n, (p, n) ∈ s.issued.map holder → n ≤ s.calls p
  failed_le : ∀ p n, (p, n) ∈ s.failed → n ≤ s.calls p
  pending : ∀ p, (s.enqueue p).counted = 1 →
    (p, s.calls p) ∉ s.issued.map holder ∧ (p, s.calls p) ∉ s.failed
  disjoint : ∀ c ∈ s.failed, c ∉ s.issued.map holder

section Calls

variable {P : Type} [DecidableEq P] {rb : MPSCRingBuffer} {s t : State P} {e : Label P}

omit [DecidableEq P] in
theorem callInv_start : CallInv (start rb : State P) where
  issued_le := fun _ _ h => absurd h not_mem_nil
  failed_le := fun _ _ h => absurd h not_mem_nil
  pending := fun _ h => by cases h
  disjoint := fun _ h => absurd h not_mem_nil

omit [DecidableEq P] in
theorem CallInv.of_eq (h : CallInv s) (hcalls : t.calls = s.calls) (hfailed : t.failed = s.failed)
    (hissued : t.issued.map holder = s.issued.map holder)
    (hcounted : ∀ p, (t.enqueue p).counted = 1 → (s.enqueue p).counted = 1) : CallInv t := by
  obtain ⟨hissued_le, hfailed_le, hpending, hdisjoint⟩ := h
  refine ⟨?_, ?_, ?_, ?_⟩
  · rw [hissued, hcalls]
    exact hissued_le
  · rw [hfailed, hcalls]
    exact hfailed_le
  · rw [hissued, hfailed, hcalls]
    exact fun p hp => hpending p (hcounted p hp)
  · rw [hissued, hfailed]
    exact hdisjoint

theorem counted_update {c : EnqueueCall} (hc : c.counted ≠ 1) (p q : P)
    (h : (update s.enqueue p c q).counted = 1) :
    q ≠ p ∧ (s.enqueue q).counted = 1 := by
  rcases eq_or_ne q p with rfl | hne
  · rw [update_self] at h
    exact absurd h hc
  · rw [update_of_ne hne] at h
    exact ⟨hne, h⟩

theorem CallInv.begin (h : CallInv s) {p : P} (c : EnqueueCall) :
    CallInv { setEnqueue s p c with
      count := s.count + 1
      calls := update s.calls p (s.calls p + 1) } := by
  obtain ⟨hissued_le, hfailed_le, hpending, hdisjoint⟩ := h
  have hle : ∀ q, s.calls q ≤ update s.calls p (s.calls p + 1) q := by
    intro q
    rcases eq_or_ne q p with rfl | hne
    · rw [update_self]
      exact Nat.le_succ _
    · rw [update_of_ne hne]
  refine ⟨?_, ?_, ?_, hdisjoint⟩
  · exact fun q n hq => le_trans (hissued_le q n hq) (hle q)
  · exact fun q n hq => le_trans (hfailed_le q n hq) (hle q)
  · intro q hq
    rcases eq_or_ne q p with rfl | hne
    · dsimp only [setEnqueue]
      rw [update_self]
      exact ⟨fun hmem => Nat.not_succ_le_self _ (hissued_le q _ hmem),
        fun hmem => Nat.not_succ_le_self _ (hfailed_le q _ hmem)⟩
    · dsimp only [setEnqueue] at hq ⊢
      rw [update_of_ne hne] at hq ⊢
      exact hpending q hq

theorem CallInv.step (h : CallInv s) (hstep : Step rb s e t) : CallInv t := by
  cases hstep with
  | full => exact h.begin .back_off
  | admitted => exact h.begin _
  | @back_off p hcall =>
    have hself : (s.enqueue p).counted = 1 := by rw [hcall]; rfl
    obtain ⟨hissued, hfailed⟩ := h.pending p hself
    refine ⟨h.issued_le, ?_, ?_, ?_⟩
    · intro q n hq
      rcases mem_append.mp hq with hq | hq
      · exact h.failed_le q n hq
      · cases mem_singleton.mp hq
        exact le_rfl
    · intro q hq
      obtain ⟨hne, hq⟩ := counted_update (by simp [EnqueueCall.counted]) p q hq
      obtain ⟨hq1, hq2⟩ := h.pending q hq
      refine ⟨hq1, fun hmem => ?_⟩
      rcases mem_append.mp hmem with hmem | hmem
      · exact hq2 hmem
      · exact hne (congrArg Prod.fst (mem_singleton.mp hmem))
    · intro c hc
      rcases mem_append.mp hc with hc | hc
      · exact h.disjoint c hc
      · rw [mem_singleton.mp hc]
        exact hissued
  | @fetch_tail p data hcall =>
    have hself : (s.enqueue p).counted = 1 := by rw [hcall]; rfl
    obtain ⟨hissued, hfailed⟩ := h.pending p hself
    have hholders : (s.issued ++ [(⟨(p, s.calls p), data, false⟩ :
        Ticket (P × Nat) (List UInt8))]).map holder
        = s.issued.map holder ++ [(p, s.calls p)] := map_append
    refine ⟨?_, h.failed_le, ?_, ?_⟩
    · intro q n hq
      rw [hholders] at hq
      rcases mem_append.mp hq with hq | hq
      · exact h.issued_le q n hq
      · cases mem_singleton.mp hq
        exact le_rfl
    · intro q hq
      obtain ⟨hne, hq⟩ := counted_update (by simp [EnqueueCall.counted]) p q hq
      obtain ⟨hq1, hq2⟩ := h.pending q hq
      refine ⟨fun hmem => ?_, hq2⟩
      rw [hholders] at hmem
      rcases mem_append.mp hmem with hmem | hmem
      · exact hq1 hmem
      · exact hne (congrArg Prod.fst (mem_singleton.mp hmem))
    · intro c hc hmem
      rw [hholders] at hmem
      rcases mem_append.mp hmem with hmem | hmem
      · exact h.disjoint c hc hmem
      · exact hfailed (mem_singleton.mp hmem ▸ hc)
  | copyIn | set_size =>
    exact h.of_eq rfl rfl rfl fun q hq =>
      (counted_update (by simp [EnqueueCall.counted]) _ q hq).2
  | set_ready =>
    exact h.of_eq rfl rfl (map_holder_complete ..) fun q hq =>
      (counted_update (by simp [EnqueueCall.counted]) _ q hq).2
  | noBuffer | spin => exact h
  | size_head | empty | size_tail | load_head | ready | copyOut | partly | consume | clear_ready
  | store_head | fetch_count => exact h.of_eq rfl rfl rfl fun _ hq => hq

end Calls

section Fifo

variable {P : Type} [Fintype P] [DecidableEq P] {rb : MPSCRingBuffer} {largest : Nat}
  {s t : State P} {e : Label P}

structure Inv (rb : MPSCRingBuffer) (largest : Nat) (s : State P) : Prop where
  counts : CountInv rb s
  entries : EntryInv rb largest s
  calls : CallInv s

theorem Inv.step (h : Inv rb largest s) (hok : Admitted largest s e ∧ Short e)
    (hstep : rb.step s e = some t) : Inv rb largest t := by
  have hcases := step_cases hstep
  refine ⟨h.counts.step hcases ?_, h.entries.step h.counts hcases hok.1 hok.2,
    h.calls.step hcases⟩
  intro i data hcall
  have hknows := h.entries.consumer
  rw [hcall] at hknows
  obtain ⟨⟨rfl, c, hc⟩, -⟩ := hknows
  exact ⟨rfl, h.counts.issued_length ▸ (List.getElem?_eq_some_iff.mp hc).1⟩

theorem inv_of_reach (h : Reach rb.step (fun s e => Admitted largest s e ∧ Short e)
    (start rb) s) : Inv rb largest s :=
  h.invariant ⟨countInv_start, entryInv_start, callInv_start⟩ fun _ _ _ hs hok => hs.step hok

omit [DecidableEq P] in
theorem Inv.isSome_dequeueNext (h : Inv rb largest s) (hcall : s.dequeue ≠ .outside) :
    (rb.dequeueNext s).isSome := by
  rw [dequeueNext]
  split
  · exact absurd ‹_› hcall
  · rfl
  · rfl
  · split <;> rfl
  · obtain ⟨data, -, ⟨hsize, -⟩, hle⟩ := h.entries.holds_of_copy ‹_›
    rw [if_pos (by omega)]
    rfl
  · dsimp only
    split <;> rfl
  · rfl
  · rfl
  · rfl

-- What the consumer has got is a front part of the complete messages in the order of the
-- reservations. A complete message stays in its entry until the consumer has copied it, and
-- a call that returned false has no ticket.
theorem reliable_fifo (rb : MPSCRingBuffer) (largest : Nat)
    (h : Reach rb.step (fun s e => Admitted largest s e ∧ Short e) (start rb) s) :
    s.dequeued <+: completed s.issued ∧
    (∀ i u, nextToCopy s ≤ i → s.issued[i]? = some u → u.ready = true →
      (rb.entryAt s i).is_ready = true ∧ (rb.entryAt s i).remaining_size = u.value.length ∧
      (rb.entryAt s i).data.take u.value.length = u.value) ∧
    (∀ c ∈ s.failed, ∀ u ∈ s.issued, u.holder ≠ c) ∧
    (s.dequeue ≠ .outside → (rb.step s .dequeueNext).isSome) := by
  have hinv := inv_of_reach h
  refine ⟨?_, hinv.entries.held, ?_, hinv.isSome_dequeueNext⟩
  · rw [hinv.entries.dequeued_eq]
    refine take_prefix_completed fun i hi => hinv.entries.taken i ?_
    exact lt_of_lt_of_le hi (Nat.sub_le ..)
  · rintro c hc u hu rfl
    exact hinv.calls.disjoint _ hc (mem_map_of_mem hu)

theorem reliable_fifo_two_producers : ∃ s : State (Fin 2),
    (s.dequeued = [[7, 8]] ∧ s.failed = [(1, 1)] ∧ s.tail = 2) ∧
    s.dequeued <+: completed s.issued := by
  obtain ⟨s, hreach, hs⟩ := exists_reach_of_run (step ⟨11, 1⟩)
    (fun s e => Admitted 2 s e ∧ Short e) (start ⟨11, 1⟩ : State (Fin 2))
    [.enqueue 0 [7, 8], .enqueue 1 [9], .enqueueNext 0, .enqueueNext 1, .enqueueNext 0,
      .enqueueNext 0, .enqueueNext 0, .dequeue 2, .dequeueNext, .dequeueNext, .dequeueNext,
      .dequeueNext, .dequeueNext, .dequeueNext, .dequeueNext, .dequeueNext, .enqueue 1 [9],
      .enqueueNext 1]
    (fun s => s.dequeued = [[7, 8]] ∧ s.failed = [(1, 1)] ∧ s.tail = 2) (by decide +kernel)
  exact ⟨s, hs, (reliable_fifo ⟨11, 1⟩ 2 hreach).1⟩

-- No slot is lost: count may be too large while calls are under way, but behind them it is the
-- number of messages in the ring again, also after calls that were refused.
theorem count_at_rest (h : Reach rb.step (fun s e => Admitted largest s e ∧ Short e) (start rb) s)
    (hproducers : ∀ p, s.enqueue p = .outside) (hconsumer : s.dequeue = .outside) :
    s.count = s.issued.length - s.head ∧ s.head ≤ s.issued.length ∧ s.count ≤ rb.entry_num := by
  obtain ⟨hlength, hle, hcount, hwindow⟩ := (inv_of_reach h).counts
  simp only [hproducers, hconsumer, EnqueueCall.counted, EnqueueCall.reserving,
    DequeueCall.counted, Finset.sum_const_zero] at hcount hwindow
  omega

theorem count_at_rest_refused : ∃ s : State (Fin 2),
    s.failed = [(1, 1)] ∧ s.count = s.issued.length - s.head ∧ s.count = 1 := by
  obtain ⟨s, hreach, hfailed, hone, hproducers, hconsumer⟩ := exists_reach_of_run (step ⟨11, 1⟩)
    (fun s e => Admitted 2 s e ∧ Short e) (start ⟨11, 1⟩ : State (Fin 2))
    [.enqueue 0 [7, 8], .enqueue 1 [9], .enqueueNext 0, .enqueueNext 1, .enqueueNext 0,
      .enqueueNext 0, .enqueueNext 0]
    (fun s => s.failed = [(1, 1)] ∧ s.count = 1 ∧ (∀ p, s.enqueue p = .outside) ∧
      s.dequeue = .outside) (by decide +kernel)
  exact ⟨s, hfailed, (count_at_rest hreach hproducers hconsumer).1, hone⟩

end Fifo

theorem dequeue_of_outside {P : Type} {s : State P} {n : Nat} (hcall : s.dequeue = .outside)
    (hn : n ≠ 0) : dequeue s n = some (setDequeue s (.load_tail n s.head)) := by
  rw [dequeue, if_pos hcall, if_neg hn]

-- A message that goes alone through a ring of one entry loses what remaining_size has no
-- room for.
theorem dequeued_alone (rb : MPSCRingBuffer) (hnum : rb.entry_num = 1) (data : List UInt8)
    (hpos : 0 < data.length) (hsize : data.length ≤ rb.entry_data_size) :
    ∃ s : State Unit, Reach rb.step (Admitted data.length) (start rb) s ∧
      s.dequeued = [data.take (data.length % 2 ^ 32)] ∧ completed s.issued = [data] := by
  obtain ⟨size, num⟩ := rb
  cases hnum
  have hmod : min data.length (data.length % 2 ^ 32) = data.length % 2 ^ 32 :=
    Nat.min_eq_right (Nat.mod_le ..)
  have hdata : (data ++ (List.replicate (size - 9) 0).drop data.length).take
      (min data.length (data.length % 2 ^ 32)) = data.take (data.length % 2 ^ 32) := by
    rw [hmod, take_append_of_le_length (Nat.mod_le ..)]
  have hle : data.length % 2 ^ 32 ≤ ((data ++ (List.replicate (size - 9) 0).drop
      data.length).take (min data.length (data.length % 2 ^ 32))).length := by
    rw [hdata, length_take, Nat.min_eq_left (Nat.mod_le ..)]
  have hdequeued := congrArg (fun l => [l]) hdata
  have h1 : Reach (step ⟨size, 1⟩) (Admitted data.length) (start ⟨size, 1⟩ : State Unit) _ :=
    .tail .refl (e := .enqueue () data) ⟨hpos, le_rfl⟩ (if_pos ⟨rfl, hsize⟩)
  have h2 := h1.tail (e := Label.enqueueNext ()) trivial rfl
  have h3 := h2.tail (e := Label.enqueueNext ()) trivial rfl
  have h4 := h3.tail (e := Label.enqueueNext ()) trivial rfl
  have h5 := h4.tail (e := Label.enqueueNext ()) trivial rfl
  have h6 := h5.tail (e := Label.dequeue data.length) le_rfl
    (dequeue_of_outside rfl (Nat.ne_of_gt hpos))
  have h7 := h6.tail (e := Label.dequeueNext) trivial rfl
  have h8 := h7.tail (e := Label.dequeueNext) trivial rfl
  have h9 := h8.tail (e := Label.dequeueNext) trivial rfl
  have h10 := h9.tail (e := Label.dequeueNext) trivial (if_pos hmod)
  have h11 := h10.tail (e := Label.dequeueNext) trivial (if_pos (Nat.sub_eq_zero_of_le hle))
  have h12 := h11.tail (e := Label.dequeueNext) trivial rfl
  have h13 := h12.tail (e := Label.dequeueNext) trivial rfl
  have h14 := h13.tail (e := Label.dequeueNext) trivial rfl
  exact ⟨_, h14, hdequeued, rfl⟩

-- A message of 2^32 bytes arrives as the empty one.
theorem not_fifo_of_long_message : ∃ s : State Unit,
    Reach (step ⟨2 ^ 32 + 9, 1⟩) (Admitted (2 ^ 32)) (start ⟨2 ^ 32 + 9, 1⟩) s ∧
      ¬ s.dequeued <+: completed s.issued := by
  obtain ⟨data, hlength⟩ : ∃ data : List UInt8, data.length = 2 ^ 32 :=
    ⟨List.replicate (2 ^ 32) 0, length_replicate⟩
  obtain ⟨s, hreach, hdequeued, hcompleted⟩ :=
    dequeued_alone ⟨2 ^ 32 + 9, 1⟩ rfl data (by omega)
      (by simp [entry_data_size, hlength])
  rw [hlength] at hreach hdequeued
  refine ⟨s, hreach, fun hprefix => ?_⟩
  rw [hdequeued, hcompleted, Nat.mod_self, take_zero] at hprefix
  have hnil : [] = data := (cons_prefix_cons.mp hprefix).1
  rw [← hnil] at hlength
  cases hlength

end MPSCRingBuffer

end Tigon.Common
