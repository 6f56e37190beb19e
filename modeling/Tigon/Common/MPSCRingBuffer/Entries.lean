import Tigon.Common.MPSCRingBuffer.Counting

namespace Tigon.Common

open Function List Tigon.Library Ticket

namespace MPSCRingBuffer

def Fits (largest : Nat) (data : List UInt8) : Prop :=
  data.length < 2 ^ 32 ∧ data.length ≤ largest

def Holds (e : Entry) (data : List UInt8) : Prop :=
  e.remaining_size = data.length ∧ e.data.take data.length = data

section Invariant

variable {P : Type} (rb : MPSCRingBuffer) (largest : Nat)

def Owns (s : State P) (p : P) (data : List UInt8) (cur_tail : Nat) : Prop :=
  s.head ≤ cur_tail ∧ ∃ n, s.issued[cur_tail]? = some ⟨(p, n), data, false⟩

def Knows (s : State P) (p : P) : EnqueueCall → Prop
  | .outside | .back_off => True
  | .fetch_tail data => Fits largest data
  | .copy data cur_tail => Owns s p data cur_tail
  | .set_size data cur_tail => Owns s p data cur_tail ∧
      (rb.entryAt s cur_tail).data.take data.length = data
  | .set_ready data cur_tail => Owns s p data cur_tail ∧ Holds (rb.entryAt s cur_tail) data

def Takes (s : State P) (cur_head : Nat) (data_buffer : List UInt8) : Prop :=
  cur_head = s.head ∧ ∃ c, s.issued[s.head]? = some ⟨c, data_buffer, true⟩

def ConsumerKnows (s : State P) : DequeueCall → Prop
  | .outside => True
  | .load_tail buffer_size cur_head => largest ≤ buffer_size ∧ cur_head = s.head
  | .load_head buffer_size => largest ≤ buffer_size ∧ s.head < s.tail
  | .wait buffer_size cur_head => largest ≤ buffer_size ∧ cur_head = s.head ∧ s.head < s.tail
  | .copy buffer_size cur_head => largest ≤ buffer_size ∧ ∃ data, Takes s cur_head data
  | .consume cur_head data_buffer => Takes s cur_head data_buffer ∧
      (rb.entryAt s cur_head).remaining_size = data_buffer.length
  | .clear_ready cur_head data_buffer => Takes s cur_head data_buffer
  | .store_head cur_head data_buffer => Takes s cur_head data_buffer ∧
      (rb.entryAt s cur_head).is_ready = false
  | .fetch_count data_buffer => 0 < s.head ∧
      ∃ c, s.issued[s.head - 1]? = some ⟨c, data_buffer, true⟩

-- Each entry holds the message of its ticket, from the time the message is complete until
-- the consumer has copied it.
structure EntryInv (s : State P) : Prop where
  fits : ∀ t ∈ s.issued, Fits largest t.value
  producer : ∀ p, Knows rb largest s p (s.enqueue p)
  consumer : ConsumerKnows rb largest s s.dequeue
  held : ∀ i t, nextToCopy s ≤ i → s.issued[i]? = some t → t.ready = true →
    (rb.entryAt s i).is_ready = true ∧ Holds (rb.entryAt s i) t.value
  ready : ∀ k, (s.entries k).is_ready = true →
    ∃ i t, s.head ≤ i ∧ i % rb.entry_num = k ∧ s.issued[i]? = some t ∧ t.ready = true
  taken : ∀ i < s.head, ∀ t, s.issued[i]? = some t → t.ready = true
  dequeued_eq : s.dequeued = (s.issued.map value).take (s.head - s.dequeue.counted)

end Invariant

section Entries

variable {P : Type} {rb : MPSCRingBuffer} {largest : Nat} {s t : State P} {e : Label P}

theorem entryAt_setEntryAt_self (rb : MPSCRingBuffer) (s : State P) (i : Nat) (x : Entry) :
    rb.entryAt (rb.setEntryAt s i x) i = x := update_self ..

theorem entryAt_setEntryAt_of_ne {i j : Nat} (x : Entry)
    (h : j % rb.entry_num ≠ i % rb.entry_num) :
    rb.entryAt (rb.setEntryAt s i x) j = rb.entryAt s j := update_of_ne h ..

theorem head_le_nextToCopy : s.head ≤ nextToCopy s := by
  unfold nextToCopy
  split <;> omega

theorem Knows.of_owns {p : P} {c : EnqueueCall} (h : Knows rb largest s p c)
    (hkeep : ∀ data i, Owns s p data i → Owns t p data i ∧ rb.entryAt t i = rb.entryAt s i) :
    Knows rb largest t p c := by
  cases c with
  | outside | back_off => trivial
  | fetch_tail data => exact h
  | copy data i => exact (hkeep data i h).1
  | set_size data i | set_ready data i =>
    obtain ⟨howns, hentry⟩ := hkeep data i h.1
    exact ⟨howns, hentry ▸ h.2⟩

theorem entryInv_start : EntryInv rb largest (start rb : State P) where
  fits := fun _ ht => absurd ht not_mem_nil
  producer := fun _ => trivial
  consumer := trivial
  held := fun _ _ _ ht => by cases ht
  ready := fun _ hready => by cases hready
  taken := fun _ hi => absurd hi (Nat.not_lt_zero _)
  dequeued_eq := rfl

theorem ConsumerKnows.of_complete {c : DequeueCall} (h : ConsumerKnows rb largest s c)
    (hhead : t.head = s.head) (htail : s.tail ≤ t.tail)
    (hissued : ∀ (i : Nat) (u : Ticket (P × Nat) (List UInt8)), s.issued[i]? = some u →
      u.ready = true → t.issued[i]? = some u)
    (hentry : ∀ data, Takes s s.head data → rb.entryAt t s.head = rb.entryAt s s.head) :
    ConsumerKnows rb largest t c := by
  have htakes : ∀ i data, Takes s i data → Takes t i data ∧ rb.entryAt t i = rb.entryAt s i := by
    rintro i data ⟨rfl, c, hc⟩
    exact ⟨⟨hhead.symm, c, hhead ▸ hissued _ _ hc rfl⟩, hentry data ⟨rfl, c, hc⟩⟩
  cases c with
  | outside => trivial
  | load_tail n i => exact ⟨h.1, h.2.trans hhead.symm⟩
  | load_head n => exact ⟨h.1, by have := h.2; omega⟩
  | wait n i => exact ⟨h.1, h.2.1.trans hhead.symm, by have := h.2.2; omega⟩
  | copy n i =>
    obtain ⟨hn, data, hdata⟩ := h
    exact ⟨hn, data, (htakes i data hdata).1⟩
  | consume i data | store_head i data =>
    obtain ⟨hdata, hentry'⟩ := htakes i data h.1
    exact ⟨hdata, hentry' ▸ h.2⟩
  | clear_ready i data => exact (htakes i data h).1
  | fetch_count data =>
    obtain ⟨hpos, c, hc⟩ := h
    exact ⟨hhead ▸ hpos, c, hhead ▸ hissued _ _ hc rfl⟩

section Producer

variable [DecidableEq P] {p : P}

theorem forall_knows_update {c : EnqueueCall} (hknows : Knows rb largest t p c)
    (hothers : ∀ q, q ≠ p → Knows rb largest t q (s.enqueue q)) (q : P) :
    Knows rb largest t q (update s.enqueue p c q) := by
  rcases eq_or_ne q p with rfl | hne
  · rw [update_self]
    exact hknows
  · rw [update_of_ne hne]
    exact hothers q hne

theorem EntryInv.of_call (h : EntryInv rb largest s) (p : P) (c : EnqueueCall)
    (hknows : Knows rb largest s p c) (count : Nat) (calls : P → Nat) (failed : List (P × Nat)) :
    EntryInv rb largest { setEnqueue s p c with
      count := count
      calls := calls
      failed := failed } where
  fits := h.fits
  producer := forall_knows_update (hknows.of_owns fun _ _ howns => ⟨howns, rfl⟩)
    fun q _ => (h.producer q).of_owns fun _ _ howns => ⟨howns, rfl⟩
  consumer := h.consumer.of_complete rfl le_rfl (fun _ _ hu _ => hu) fun _ _ => rfl
  held := h.held
  ready := h.ready
  taken := h.taken
  dequeued_eq := h.dequeued_eq

variable {i : Nat}

theorem getElem?_append_of_some {α : Type} {l l' : List α} {a : α} (h : l[i]? = some a) :
    (l ++ l')[i]? = some a := by
  rw [List.getElem?_append_left (List.getElem?_eq_some_iff.mp h).1]
  exact h

variable {data : List UInt8}

omit [DecidableEq P] in
theorem getElem?_concat_ready {l : List (Ticket (P × Nat) (List UInt8))} {c : P × Nat}
    {u : Ticket (P × Nat) (List UInt8)} (h : (l ++ [⟨c, data, false⟩])[i]? = some u)
    (hready : u.ready = true) : l[i]? = some u := by
  rw [List.getElem?_append] at h
  split at h
  · exact h
  · rw [List.getElem?_singleton] at h
    split at h
    · cases h
      cases hready
    · cases h

theorem EntryInv.fetch_tail [Fintype P] (h : EntryInv rb largest s) (hcount : CountInv rb s)
    (hcall : s.enqueue p = .fetch_tail data) :
    EntryInv rb largest { setEnqueue s p (.copy data s.tail) with
      tail := s.tail + 1
      issued := s.issued ++ [⟨(p, s.calls p), data, false⟩] } where
  fits := by
    intro u hu
    rcases mem_append.mp hu with hu | hu
    · exact h.fits u hu
    · rw [mem_singleton.mp hu]
      have hknows := h.producer p
      rw [hcall] at hknows
      exact hknows
  producer := by
    apply forall_knows_update
    · refine ⟨hcount.head_le, s.calls p, ?_⟩
      rw [← hcount.issued_length]
      exact List.getElem?_concat_length
    · intro q _
      refine (h.producer q).of_owns fun data i howns => ?_
      obtain ⟨hle, n, hn⟩ := howns
      exact ⟨⟨hle, n, getElem?_append_of_some hn⟩, rfl⟩
  consumer := h.consumer.of_complete rfl (Nat.le_succ _)
    (fun _ _ hu _ => getElem?_append_of_some hu) fun _ _ => rfl
  held := fun i u hi hu hready => h.held i u hi (getElem?_concat_ready hu hready) hready
  ready := by
    intro k hk
    obtain ⟨i, u, hi, hmod, hu, hready⟩ := h.ready k hk
    exact ⟨i, u, hi, hmod, getElem?_append_of_some hu, hready⟩
  taken := by
    intro i hi u hu
    have hlt : i < s.issued.length := hcount.issued_length ▸ lt_of_lt_of_le hi hcount.head_le
    rw [List.getElem?_append_left hlt] at hu
    exact h.taken i hi u hu
  dequeued_eq := by
    have hle : s.head - s.dequeue.counted ≤ (s.issued.map value).length := by
      rw [length_map, hcount.issued_length]
      exact le_trans (Nat.sub_le ..) hcount.head_le
    dsimp only [setEnqueue]
    rw [map_append, take_append_of_le_length hle]
    exact h.dequeued_eq

omit [DecidableEq P] in
theorem CountInv.entryAt_of_owns [Fintype P] (hcount : CountInv rb s) (howns : Owns s p data i)
    (x : Entry) :
    (∀ q data' j, q ≠ p → Owns s q data' j →
      j ≠ i ∧ rb.entryAt (rb.setEntryAt s i x) j = rb.entryAt s j) ∧
    (∀ (j : Nat) (u : Ticket (P × Nat) (List UInt8)), s.head ≤ j → s.issued[j]? = some u →
      u.ready = true → j ≠ i ∧ rb.entryAt (rb.setEntryAt s i x) j = rb.entryAt s j) := by
  obtain ⟨hi, n, hn⟩ := howns
  constructor
  · rintro q data' j hq ⟨hj, m, hm⟩
    have hne : j ≠ i := by
      rintro rfl
      rw [hn] at hm
      cases hm
      exact hq rfl
    exact ⟨hne, entryAt_setEntryAt_of_ne x (hcount.entry_ne hj hm hi hn hne)⟩
  · intro j u hj hu hready
    have hne : j ≠ i := by
      rintro rfl
      rw [hn] at hu
      cases hu
      cases hready
    exact ⟨hne, entryAt_setEntryAt_of_ne x (hcount.entry_ne hj hu hi hn hne)⟩

theorem EntryInv.of_write [Fintype P] (h : EntryInv rb largest s) (hcount : CountInv rb s)
    (howns : Owns s p data i) {x : Entry} {c : EnqueueCall}
    (hx : x.is_ready = (rb.entryAt s i).is_ready)
    (hknows : Knows rb largest (rb.setEntryAt s i x) p c) :
    EntryInv rb largest (setEnqueue (rb.setEntryAt s i x) p c) := by
  obtain ⟨hothers, hcomplete⟩ := hcount.entryAt_of_owns howns x
  refine ⟨h.fits, ?_, ?_, ?_, ?_, h.taken, h.dequeued_eq⟩
  · refine forall_knows_update (hknows.of_owns fun _ _ howns' => ⟨howns', rfl⟩) fun q hq => ?_
    exact (h.producer q).of_owns fun data' j hj => ⟨hj, (hothers q data' j hq hj).2⟩
  · refine h.consumer.of_complete rfl le_rfl (fun _ _ hu _ => hu) fun data' htakes => ?_
    obtain ⟨-, c', hc'⟩ := htakes
    exact (hcomplete _ _ le_rfl hc' rfl).2
  · intro j u hj hu hready
    have hentry := (hcomplete j u (le_trans head_le_nextToCopy hj) hu hready).2
    have hheld := h.held j u hj hu hready
    rw [← hentry] at hheld
    exact hheld
  · intro k hk
    refine h.ready k ?_
    rcases eq_or_ne k (i % rb.entry_num) with rfl | hne
    · rw [← entryAt, ← hx]
      exact (congrArg Entry.is_ready (update_self ..)).symm.trans hk
    · exact (congrArg Entry.is_ready (update_of_ne hne ..)).symm.trans hk

omit [DecidableEq P] in
theorem getElem?_complete_ready {l : List (Ticket (P × Nat) (List UInt8))} {j : Nat}
    {u : Ticket (P × Nat) (List UInt8)} (hu : l[j]? = some u) (hready : u.ready = true) :
    (complete l i)[j]? = some u := by
  rcases eq_or_ne i j with rfl | hne
  · rw [getElem?_complete_self hu, ← hready]
  · rw [getElem?_complete_of_ne l hne]
    exact hu

theorem EntryInv.set_ready [Fintype P] (h : EntryInv rb largest s) (hcount : CountInv rb s)
    (hcall : s.enqueue p = .set_ready data i) :
    EntryInv rb largest
      { setEnqueue (rb.setEntryAt s i { rb.entryAt s i with is_ready := true }) p .outside with
        issued := complete s.issued i } := by
  have hknows := h.producer p
  rw [hcall] at hknows
  obtain ⟨howns, hholds⟩ := hknows
  obtain ⟨hothers, hcomplete⟩ :=
    hcount.entryAt_of_owns howns { rb.entryAt s i with is_ready := true }
  obtain ⟨hi, n, hn⟩ := howns
  have hvalues := map_value_complete s.issued i
  refine ⟨?_, ?_, ?_, ?_, ?_, ?_, ?_⟩
  · intro u hu
    have hvalue : u.value ∈ s.issued.map value := hvalues ▸ mem_map_of_mem hu
    obtain ⟨v, hv, heq⟩ := mem_map.mp hvalue
    exact heq ▸ h.fits v hv
  · refine forall_knows_update trivial fun q hq => (h.producer q).of_owns fun data' j hj => ?_
    obtain ⟨hne, hentry⟩ := hothers q data' j hq hj
    obtain ⟨hle, m, hm⟩ := hj
    exact ⟨⟨hle, m, (getElem?_complete_of_ne _ hne.symm).trans hm⟩, hentry⟩
  · refine h.consumer.of_complete rfl le_rfl
      (fun _ _ hu hready => getElem?_complete_ready hu hready) fun data' htakes => ?_
    obtain ⟨-, c', hc'⟩ := htakes
    exact (hcomplete _ _ le_rfl hc' rfl).2
  · intro j u hj hu hready
    rcases eq_or_ne i j with rfl | hne
    · rw [getElem?_complete_self hn] at hu
      cases hu
      have hself := entryAt_setEntryAt_self rb s i
        { rb.entryAt s i with is_ready := true }
      exact ⟨congrArg Entry.is_ready hself, (congrArg (Holds · data) hself).mpr hholds⟩
    · rw [getElem?_complete_of_ne _ hne] at hu
      have hentry := (hcomplete j u (le_trans head_le_nextToCopy hj) hu hready).2
      have hheld := h.held j u hj hu hready
      rw [← hentry] at hheld
      exact hheld
  · intro k hk
    rcases eq_or_ne k (i % rb.entry_num) with rfl | hne
    · exact ⟨i, _, hi, rfl, getElem?_complete_self hn, rfl⟩
    · have hk' : (s.entries k).is_ready = true :=
        (congrArg Entry.is_ready (update_of_ne hne ..)).symm.trans hk
      obtain ⟨j, u, hj, hmod, hu, hready⟩ := h.ready k hk'
      exact ⟨j, u, hj, hmod, getElem?_complete_ready hu hready, hready⟩
  · intro j hj u hu
    have hne : i ≠ j := by
      have hlt : j < s.head := hj
      omega
    rw [getElem?_complete_of_ne _ hne] at hu
    exact h.taken j hj u hu
  · exact h.dequeued_eq.trans (by rw [← hvalues]; rfl)

end Producer

section Consumer

theorem EntryInv.of_dequeue (h : EntryInv rb largest s) {c : DequeueCall}
    (hknows : ConsumerKnows rb largest s c) (hcounted : c.counted = s.dequeue.counted)
    (hnext : nextToCopy s ≤ nextToCopy (setDequeue s c)) :
    EntryInv rb largest (setDequeue s c) where
  fits := h.fits
  producer := fun q => (h.producer q).of_owns fun _ _ howns => ⟨howns, rfl⟩
  consumer := hknows.of_complete rfl le_rfl (fun _ _ hu _ => hu) fun _ _ => rfl
  held := fun i u hi hu hready => h.held i u (le_trans hnext hi) hu hready
  ready := h.ready
  taken := h.taken
  dequeued_eq := by
    rw [show (setDequeue s c).dequeue.counted = s.dequeue.counted from hcounted]
    exact h.dequeued_eq

variable {data : List UInt8} {i : Nat}

section

variable (h : EntryInv rb largest s)

include h

theorem EntryInv.of_consume [Fintype P] (hcount : CountInv rb s) (htakes : Takes s i data)
    {x : Entry} {c : DequeueCall} (hx : x.is_ready = true → (rb.entryAt s i).is_ready = true)
    (hknows : ConsumerKnows rb largest (rb.setEntryAt s i x) c)
    (hcounted : c.counted = s.dequeue.counted) (hnext : nextToCopy (setDequeue s c) = s.head + 1)
    (hnext' : nextToCopy s ≤ s.head + 1) :
    EntryInv rb largest (setDequeue (rb.setEntryAt s i x) c) := by
  obtain ⟨rfl, c', hc'⟩ := htakes
  refine ⟨h.fits, ?_, ?_, ?_, ?_, h.taken, ?_⟩
  · refine fun q => (h.producer q).of_owns fun data' j hj => ⟨hj, ?_⟩
    obtain ⟨hle, m, hm⟩ := hj
    have hne : j ≠ s.head := by
      rintro rfl
      rw [hc'] at hm
      cases hm
    exact entryAt_setEntryAt_of_ne x (hcount.entry_ne hle hm le_rfl hc' hne)
  · exact hknows.of_complete rfl le_rfl (fun _ _ hu _ => hu) fun _ _ => rfl
  · intro j u hj hu hready
    have hle : s.head + 1 ≤ j := hnext ▸ hj
    have hentry : rb.entryAt (rb.setEntryAt s s.head x) j = rb.entryAt s j :=
      entryAt_setEntryAt_of_ne x (hcount.entry_ne (by omega) hu le_rfl hc' (by omega))
    have hheld := h.held j u (le_trans hnext' hle) hu hready
    rw [← hentry] at hheld
    exact hheld
  · intro k hk
    refine h.ready k ?_
    rcases eq_or_ne k (s.head % rb.entry_num) with rfl | hne
    · exact hx ((congrArg Entry.is_ready (update_self ..)).symm.trans hk)
    · exact (congrArg Entry.is_ready (update_of_ne hne ..)).symm.trans hk
  · rw [show (setDequeue (rb.setEntryAt s s.head x) c).dequeue.counted = s.dequeue.counted
      from hcounted]
    exact h.dequeued_eq

theorem EntryInv.store_head (hcall : s.dequeue = .store_head i data) :
    EntryInv rb largest { setDequeue s (.fetch_count data) with head := i + 1 } := by
  have hknows := h.consumer
  rw [hcall] at hknows
  obtain ⟨⟨rfl, c, hc⟩, hnot⟩ := hknows
  have hnext : nextToCopy s = s.head + 1 := by rw [nextToCopy, hcall]
  refine ⟨h.fits, ?_, ?_, ?_, ?_, ?_, ?_⟩
  · refine fun q => (h.producer q).of_owns fun data' j hj => ⟨?_, rfl⟩
    obtain ⟨hle, m, hm⟩ := hj
    have hne : j ≠ s.head := by
      rintro rfl
      rw [hc] at hm
      cases hm
    exact ⟨Nat.lt_of_le_of_ne hle hne.symm, m, hm⟩
  · exact ⟨Nat.succ_pos _, c, hc⟩
  · exact fun j u hj hu hready => h.held j u (hnext ▸ hj) hu hready
  · intro k hk
    obtain ⟨j, u, hj, hmod, hu, hready⟩ := h.ready k hk
    have hne : j ≠ s.head := by
      rintro rfl
      rw [entryAt, hmod] at hnot
      exact Bool.false_ne_true (hnot.symm.trans hk)
    exact ⟨j, u, Nat.lt_of_le_of_ne hj hne.symm, hmod, hu, hready⟩
  · intro j hj u hu
    rcases Nat.lt_succ_iff_lt_or_eq.mp hj with hlt | rfl
    · exact h.taken j hlt u hu
    · cases hc.symm.trans hu
      rfl
  · have heq := h.dequeued_eq
    rw [hcall] at heq
    exact heq

theorem EntryInv.fetch_count (hcall : s.dequeue = .fetch_count data) :
    EntryInv rb largest { setDequeue s .outside with
      count := s.count - 1
      dequeued := s.dequeued ++ [data] } := by
  have hknows := h.consumer
  rw [hcall] at hknows
  obtain ⟨hpos, c, hc⟩ := hknows
  have hnext : nextToCopy s = s.head := by rw [nextToCopy, hcall]
  refine ⟨h.fits, ?_, trivial, ?_, h.ready, h.taken, ?_⟩
  · exact fun q => (h.producer q).of_owns fun _ _ howns => ⟨howns, rfl⟩
  · exact fun j u hj hu hready => h.held j u (hnext.symm ▸ hj) hu hready
  · have heq := h.dequeued_eq
    rw [hcall] at heq
    have hdata : (s.issued.map value)[s.head - 1]? = some data := by
      rw [List.getElem?_map, hc]
      rfl
    have hsucc : s.head = s.head - 1 + 1 := by omega
    change s.dequeued ++ [data] = (s.issued.map value).take s.head
    rw [hsucc, take_add_one, hdata, heq]
    rfl

theorem EntryInv.holds_of_copy {n : Nat} (hcall : s.dequeue = .copy n i) :
    ∃ data, Takes s i data ∧ Holds (rb.entryAt s i) data ∧ data.length ≤ n := by
  have hknows := h.consumer
  rw [hcall] at hknows
  obtain ⟨hn, data, rfl, c, hc⟩ := hknows
  have hnext : nextToCopy s = s.head := by rw [nextToCopy, hcall]
  have hheld := (h.held s.head _ (le_of_eq hnext) hc rfl).2
  have hfits := h.fits _ (mem_of_getElem? hc)
  exact ⟨data, ⟨rfl, c, hc⟩, hheld, le_trans hfits.2 hn⟩

theorem EntryInv.copyOut {n : Nat} (hcall : s.dequeue = .copy n i) :
    EntryInv rb largest (setDequeue s
      (.consume i ((rb.entryAt s i).data.take (rb.entryAt s i).remaining_size))) := by
  obtain ⟨data, htakes, ⟨hsize, hdata⟩, -⟩ := h.holds_of_copy hcall
  rw [hsize, hdata]
  refine h.of_dequeue ⟨htakes, hsize⟩ (by rw [hcall]; rfl) ?_
  rw [nextToCopy, hcall]
  exact Nat.le_succ _

theorem EntryInv.ready_head [Fintype P] (hcount : CountInv rb s) (hlt : s.head < s.tail)
    (hready : (rb.entryAt s s.head).is_ready = true) :
    ∃ u, s.issued[s.head]? = some u ∧ u.ready = true := by
  obtain ⟨j, u, hj, hmod, hu, hcomplete⟩ := h.ready _ hready
  rcases eq_or_ne j s.head with rfl | hne
  · exact ⟨u, hu, hcomplete⟩
  · have hlt' : s.head < s.issued.length := hcount.issued_length ▸ hlt
    exact absurd hmod (hcount.entry_ne hj hu le_rfl (List.getElem?_eq_getElem hlt') hne)

end

end Consumer

theorem EntryInv.step [Fintype P] [DecidableEq P] (h : EntryInv rb largest s)
    (hcount : CountInv rb s) (hstep : Step rb s e t) (hok : Admitted largest s e)
    (hshort : Short e) : EntryInv rb largest t := by
  have hconsumer := h.consumer
  cases hstep with
  | full => exact h.of_call _ .back_off trivial _ _ _
  | @admitted p data => exact h.of_call p (.fetch_tail data) ⟨hshort, hok.2⟩ _ _ _
  | back_off => exact h.of_call _ .outside trivial _ _ _
  | fetch_tail hcall => exact h.fetch_tail hcount hcall
  | @copyIn p data i hcall =>
    have howns := h.producer p
    rw [hcall] at howns
    refine h.of_write hcount howns rfl ⟨howns, ?_⟩
    rw [entryAt_setEntryAt_self, Entry.copyIn, take_left]
  | @set_size p data i hcall =>
    have hknows := h.producer p
    rw [hcall] at hknows
    obtain ⟨howns, hdata⟩ := hknows
    have hfits : Fits largest data := by
      obtain ⟨-, n, hn⟩ := howns
      exact h.fits _ (mem_of_getElem? hn)
    refine h.of_write hcount howns rfl ⟨howns, ?_⟩
    rw [entryAt_setEntryAt_self]
    exact ⟨Nat.mod_eq_of_lt hfits.1, hdata⟩
  | set_ready hcall => exact h.set_ready hcount hcall
  | noBuffer | spin => exact h
  | size_head hcall =>
    refine h.of_dequeue ⟨hok, rfl⟩ (by rw [hcall]; rfl) ?_
    rw [nextToCopy, hcall]
    exact le_rfl
  | empty hcall htail =>
    refine h.of_dequeue trivial (by rw [hcall]; rfl) ?_
    rw [nextToCopy, hcall]
    exact le_rfl
  | size_tail hcall htail =>
    rw [hcall] at hconsumer
    obtain ⟨hn, rfl⟩ := hconsumer
    have hle := hcount.head_le
    refine h.of_dequeue ⟨hn, by omega⟩ (by rw [hcall]; rfl) ?_
    rw [nextToCopy, hcall]
    exact le_rfl
  | load_head hcall =>
    rw [hcall] at hconsumer
    refine h.of_dequeue ⟨hconsumer.1, rfl, hconsumer.2⟩ (by rw [hcall]; rfl) ?_
    rw [nextToCopy, hcall]
    exact le_rfl
  | ready hcall hready =>
    rw [hcall] at hconsumer
    obtain ⟨hn, rfl, hlt⟩ := hconsumer
    obtain ⟨u, hu, hcomplete⟩ := h.ready_head hcount hlt hready
    obtain ⟨c, data, r⟩ := u
    cases hcomplete
    refine h.of_dequeue ⟨hn, data, rfl, c, hu⟩ (by rw [hcall]; rfl) ?_
    rw [nextToCopy, hcall]
    exact le_rfl
  | copyOut hcall hsize => exact h.copyOut hcall
  | partly hcall hsize =>
    rw [hcall] at hconsumer
    exact absurd (Nat.sub_eq_zero_of_le (le_of_eq hconsumer.2)) hsize
  | consume hcall =>
    rw [hcall] at hconsumer
    refine h.of_consume hcount hconsumer.1 id hconsumer.1 (by rw [hcall]; rfl) rfl ?_
    rw [nextToCopy, hcall]
  | clear_ready hcall =>
    rw [hcall] at hconsumer
    refine h.of_consume hcount hconsumer nofun ⟨hconsumer, ?_⟩ (by rw [hcall]; rfl) rfl ?_
    · rw [entryAt_setEntryAt_self]
    · rw [nextToCopy, hcall]
  | store_head hcall => exact h.store_head hcall
  | fetch_count hcall => exact h.fetch_count hcall

end Entries

end MPSCRingBuffer

end Tigon.Common
