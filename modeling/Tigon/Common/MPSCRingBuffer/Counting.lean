import Mathlib.Algebra.Order.BigOperators.Group.Finset
import Mathlib.Order.Interval.Finset.Nat
import Tigon.Common.MPSCRingBuffer
import Tigon.Library.PointUpdate

namespace Tigon.Common

open Finset Tigon.Library

namespace MPSCRingBuffer

def EnqueueCall.reserving : EnqueueCall → Nat
  | .fetch_tail _ => 1
  | _ => 0

def EnqueueCall.counted : EnqueueCall → Nat
  | .fetch_tail _ | .back_off => 1
  | _ => 0

def DequeueCall.counted : DequeueCall → Nat
  | .fetch_count _ => 1
  | _ => 0

-- Head, tail and count agree with who is where. Together with the test of count this keeps
-- the tickets from head to tail in distinct entries.
structure CountInv {P : Type} [Fintype P] (rb : MPSCRingBuffer) (s : State P) : Prop where
  issued_length : s.issued.length = s.tail
  head_le : s.head ≤ s.tail
  count_eq : s.count = s.tail - s.head + ∑ p, (s.enqueue p).counted + s.dequeue.counted
  window : s.tail - s.head + ∑ p, (s.enqueue p).reserving ≤ rb.entry_num

section Counting

variable {P : Type} [Fintype P] [DecidableEq P] {rb : MPSCRingBuffer} {s t : State P} {e : Label P}

omit [DecidableEq P] in
theorem countInv_start : CountInv rb (start rb : State P) where
  issued_length := rfl
  head_le := Nat.le_refl 0
  count_eq := by simp [start, EnqueueCall.counted, DequeueCall.counted]
  window := by simp [start, EnqueueCall.reserving]

theorem reserving_le_counted (c : EnqueueCall) : c.reserving ≤ c.counted := by
  cases c <;> simp [EnqueueCall.reserving, EnqueueCall.counted]

-- A step of a producer. The window may grow only by a reservation that was below entry_num
-- in count.
theorem CountInv.of_producer (h : CountInv rb s) {p : P} {c : EnqueueCall}
    (henqueue : t.enqueue = Function.update s.enqueue p c) (hdequeue : t.dequeue = s.dequeue)
    (hhead : t.head = s.head) (htail : s.tail ≤ t.tail) (hlength : t.issued.length = t.tail)
    (hcount : t.count + (s.enqueue p).counted + s.tail = s.count + c.counted + t.tail)
    (hwindow : t.tail + c.reserving ≤ s.tail + (s.enqueue p).reserving ∨
      s.count < rb.entry_num ∧ t.tail + c.reserving ≤ s.tail + (s.enqueue p).reserving + 1) :
    CountInv rb t := by
  have hle := h.head_le
  have hcounted := sum_comp_update_add EnqueueCall.counted s.enqueue p c
  have hreserving := sum_comp_update_add EnqueueCall.reserving s.enqueue p c
  have hweights : ∑ q, (s.enqueue q).reserving ≤ ∑ q, (s.enqueue q).counted :=
    sum_le_sum fun q _ => reserving_le_counted (s.enqueue q)
  have hcount' := h.count_eq
  have hwindow' := h.window
  refine ⟨hlength, by omega, ?_, ?_⟩
  · rw [henqueue, hdequeue, hhead]
    omega
  · rw [henqueue, hhead]
    omega

omit [DecidableEq P] in
theorem CountInv.of_consumer (h : CountInv rb s) (henqueue : t.enqueue = s.enqueue)
    (htail : t.tail = s.tail) (hissued : t.issued = s.issued) (hhead : s.head ≤ t.head)
    (hle : t.head ≤ t.tail)
    (hcount : t.count + t.head + s.dequeue.counted = s.count + s.head + t.dequeue.counted) :
    CountInv rb t := by
  have hlength := h.issued_length
  have hcount' := h.count_eq
  have hwindow' := h.window
  refine ⟨by rw [hissued, htail]; exact hlength, hle, ?_, ?_⟩
  · rw [henqueue]
    omega
  · rw [henqueue]
    omega

theorem CountInv.step (h : CountInv rb s) (hstep : Step rb s e t)
    (hconsumer : ∀ i data, s.dequeue = .store_head i data → i = s.head ∧ s.head < s.tail) :
    CountInv rb t := by
  have hlength := h.issued_length
  have hle := h.head_le
  have hcount := h.count_eq
  cases hstep with
  | @full p data hcall hfull =>
    refine h.of_producer rfl rfl rfl le_rfl hlength ?_ (.inl ?_)
    · simp only [setEnqueue, hcall, EnqueueCall.counted]
    · simp [setEnqueue, hcall, EnqueueCall.reserving]
  | @admitted p data hcall hroom =>
    refine h.of_producer rfl rfl rfl le_rfl hlength ?_ (.inr ⟨hroom, ?_⟩)
    · simp only [setEnqueue, hcall, EnqueueCall.counted]
    · simp [setEnqueue, hcall, EnqueueCall.reserving]
  | @back_off p hcall =>
    have hpos : 1 ≤ s.count := by
      have hone : (s.enqueue p).counted ≤ ∑ q, (s.enqueue q).counted :=
        single_le_sum (f := fun q => (s.enqueue q).counted) (fun _ _ => Nat.zero_le _)
          (mem_univ p)
      have hself : (s.enqueue p).counted = 1 := by rw [hcall]; rfl
      omega
    refine h.of_producer rfl rfl rfl le_rfl hlength ?_ (.inl ?_)
    · simp only [setEnqueue, hcall, EnqueueCall.counted]
      omega
    · simp [setEnqueue, hcall, EnqueueCall.reserving]
  | @fetch_tail p data hcall =>
    refine h.of_producer rfl rfl rfl (Nat.le_succ _) ?_ ?_ (.inl ?_)
    · simp [hlength]
    · simp only [setEnqueue, hcall, EnqueueCall.counted]
      omega
    · simp [hcall, EnqueueCall.reserving]
  | @copyIn p data i hcall | @set_size p data i hcall =>
    refine h.of_producer rfl rfl rfl le_rfl hlength ?_ (.inl ?_)
    · simp only [setEnqueue, setEntryAt, hcall, EnqueueCall.counted]
    · simp [setEnqueue, setEntryAt, hcall, EnqueueCall.reserving]
  | @set_ready p data i hcall =>
    refine h.of_producer rfl rfl rfl le_rfl ?_ ?_ (.inl ?_)
    · rw [Ticket.length_complete]
      exact hlength
    · simp only [setEnqueue, setEntryAt, hcall, EnqueueCall.counted]
    · simp [setEnqueue, setEntryAt, hcall, EnqueueCall.reserving]
  | noBuffer | spin => exact h
  | size_head hcall | empty hcall | size_tail hcall | load_head hcall | ready hcall
  | copyOut hcall | partly hcall | consume hcall | clear_ready hcall =>
    refine h.of_consumer rfl rfl rfl le_rfl hle ?_
    simp only [setDequeue, setEntryAt, hcall, DequeueCall.counted]
  | store_head hcall =>
    obtain ⟨rfl, hlt⟩ := hconsumer _ _ hcall
    refine h.of_consumer rfl rfl rfl (Nat.le_succ _) hlt ?_
    simp only [setDequeue, hcall, DequeueCall.counted]
    omega
  | fetch_count hcall =>
    rw [hcall] at hcount
    simp only [DequeueCall.counted] at hcount
    refine h.of_consumer rfl rfl rfl le_rfl hle ?_
    simp only [setDequeue, hcall, DequeueCall.counted]
    omega

omit [DecidableEq P] in
theorem CountInv.entry_ne (h : CountInv rb s) {i j : Nat} {t u : Ticket (P × Nat) (List UInt8)}
    (hi : s.head ≤ i) (ht : s.issued[i]? = some t) (hj : s.head ≤ j)
    (hu : s.issued[j]? = some u) (hne : i ≠ j) : i % rb.entry_num ≠ j % rb.entry_num := by
  intro heq
  have hwindow := h.window
  have hlength := h.issued_length
  have hlt := (List.getElem?_eq_some_iff.mp ht).1
  have hlt' := (List.getElem?_eq_some_iff.mp hu).1
  refine hne (Nat.mod_injOn_Ico s.head rb.entry_num ?_ ?_ heq)
  · simp only [coe_Ico, Set.mem_Ico]
    omega
  · simp only [coe_Ico, Set.mem_Ico]
    omega

end Counting

end MPSCRingBuffer

end Tigon.Common
