import Mathlib.Algebra.Group.Nat.Defs
import Tigon.Library.TicketQueue

namespace Tigon.Common

open Function Option

open Tigon.Library (Ticket)

structure MPSCRingBuffer where
  entry_struct_size : Nat
  entry_num : Nat
deriving DecidableEq

namespace MPSCRingBuffer

def entry_data_size (rb : MPSCRingBuffer) : Nat := rb.entry_struct_size - 9

structure Entry where
  remaining_size : Nat
  dequeue_offset : Nat
  is_ready : Bool
  data : List UInt8
deriving DecidableEq

namespace Entry

-- memcpy to the front of data. What was there behind it stays.
def copyIn (e : Entry) (data : List UInt8) : Entry :=
  { e with data := data ++ e.data.drop data.length }

-- remaining_size is a uint32_t, data_size a uint64_t.
def setSize (e : Entry) (data_size : Nat) : Entry :=
  { e with remaining_size := data_size % 2 ^ 32, dequeue_offset := 0 }

def consume (e : Entry) (dequeue_size : Nat) : Entry :=
  { e with
    dequeue_offset := (e.dequeue_offset + dequeue_size) % 2 ^ 32
    remaining_size := e.remaining_size - dequeue_size }

end Entry

-- Where a producer is in enqueue, with the local variables it still needs. cur_tail is the
-- value that was fetched; the entry is the one at cur_tail % entry_num.
inductive EnqueueCall
  | outside
  | back_off
  | fetch_tail (data : List UInt8)
  | copy (data : List UInt8) (cur_tail : Nat)
  | set_size (data : List UInt8) (cur_tail : Nat)
  | set_ready (data : List UInt8) (cur_tail : Nat)
deriving DecidableEq

-- Where the consumer is in dequeue. The data it has copied is in data_buffer.
inductive DequeueCall
  | outside
  | load_tail (buffer_size cur_head : Nat)
  | load_head (buffer_size : Nat)
  | wait (buffer_size cur_head : Nat)
  | copy (buffer_size cur_head : Nat)
  | consume (cur_head : Nat) (data_buffer : List UInt8)
  | clear_ready (cur_head : Nat) (data_buffer : List UInt8)
  | store_head (cur_head : Nat) (data_buffer : List UInt8)
  | fetch_count (data_buffer : List UInt8)
deriving DecidableEq

-- `calls` counts the calls of each producer, and a call is named by its producer and number.
-- `issued` has a ticket for each message in the order of the tail reservations, `failed` the
-- calls that have returned false, and `dequeued` what the calls of dequeue have returned.
structure State (P : Type) where
  head : Nat
  tail : Nat
  count : Nat
  entries : Nat → Entry
  enqueue : P → EnqueueCall
  dequeue : DequeueCall
  calls : P → Nat
  issued : List (Ticket (P × Nat) (List UInt8))
  failed : List (P × Nat)
  dequeued : List (List UInt8)

inductive Label (P : Type)
  | enqueue (p : P) (data : List UInt8)
  | enqueueNext (p : P)
  | dequeue (buffer_size : Nat)
  | dequeueNext
deriving DecidableEq

variable {P : Type}

def start (rb : MPSCRingBuffer) : State P where
  head := 0
  tail := 0
  count := 0
  entries := fun _ => ⟨0, 0, false, List.replicate rb.entry_data_size 0⟩
  enqueue := fun _ => .outside
  dequeue := .outside
  calls := fun _ => 0
  issued := []
  failed := []
  dequeued := []

def entryAt (rb : MPSCRingBuffer) (s : State P) (i : Nat) : Entry := s.entries (i % rb.entry_num)

def setEntryAt (rb : MPSCRingBuffer) (s : State P) (i : Nat) (e : Entry) : State P :=
  { s with entries := update s.entries (i % rb.entry_num) e }

def setDequeue (s : State P) (c : DequeueCall) : State P := { s with dequeue := c }

section Enqueue

variable [DecidableEq P]

def setEnqueue (s : State P) (p : P) (c : EnqueueCall) : State P :=
  { s with enqueue := update s.enqueue p c }

-- The call up to its first atomic operation, the fetch_add on count.
def enqueue (rb : MPSCRingBuffer) (s : State P) (p : P) (data : List UInt8) :
    Option (State P) :=
  if s.enqueue p = .outside ∧ data.length ≤ rb.entry_data_size then
    some { setEnqueue s p (if rb.entry_num ≤ s.count then .back_off else .fetch_tail data) with
      count := s.count + 1
      calls := update s.calls p (s.calls p + 1) }
  else none

def enqueueNext (rb : MPSCRingBuffer) (s : State P) (p : P) : Option (State P) :=
  match s.enqueue p with
  | .outside => none
  | .back_off =>
    some { setEnqueue s p .outside with
      count := s.count - 1
      failed := s.failed ++ [(p, s.calls p)] }
  | .fetch_tail data =>
    some { setEnqueue s p (.copy data s.tail) with
      tail := s.tail + 1
      issued := s.issued ++ [⟨(p, s.calls p), data, false⟩] }
  | .copy data cur_tail =>
    some (setEnqueue (rb.setEntryAt s cur_tail ((rb.entryAt s cur_tail).copyIn data)) p
      (.set_size data cur_tail))
  | .set_size data cur_tail =>
    some (setEnqueue (rb.setEntryAt s cur_tail ((rb.entryAt s cur_tail).setSize data.length)) p
      (.set_ready data cur_tail))
  | .set_ready _ cur_tail =>
    some { setEnqueue (rb.setEntryAt s cur_tail { rb.entryAt s cur_tail with is_ready := true })
        p .outside with
      issued := Ticket.complete s.issued cur_tail }

end Enqueue

def dequeue (s : State P) (buffer_size : Nat) : Option (State P) :=
  if s.dequeue = .outside then
    if buffer_size = 0 then some s else some (setDequeue s (.load_tail buffer_size s.head))
  else none

-- A failed CHECK is none.
def dequeueNext (rb : MPSCRingBuffer) (s : State P) : Option (State P) :=
  match s.dequeue with
  | .outside => none
  | .load_tail buffer_size cur_head =>
    some (setDequeue s (if s.tail = cur_head then .outside else .load_head buffer_size))
  | .load_head buffer_size => some (setDequeue s (.wait buffer_size s.head))
  | .wait buffer_size cur_head =>
    if (rb.entryAt s cur_head).is_ready then some (setDequeue s (.copy buffer_size cur_head))
    else some s
  | .copy buffer_size cur_head =>
    let dequeue_size := min buffer_size (rb.entryAt s cur_head).remaining_size
    if dequeue_size = (rb.entryAt s cur_head).remaining_size then
      some (setDequeue s (.consume cur_head ((rb.entryAt s cur_head).data.take dequeue_size)))
    else none
  | .consume cur_head data_buffer =>
    let e := (rb.entryAt s cur_head).consume data_buffer.length
    if e.remaining_size = 0 then
      some (setDequeue (rb.setEntryAt s cur_head { e with dequeue_offset := 0 })
        (.clear_ready cur_head data_buffer))
    else some (setDequeue (rb.setEntryAt s cur_head e) .outside)
  | .clear_ready cur_head data_buffer =>
    some (setDequeue
      (rb.setEntryAt s cur_head { rb.entryAt s cur_head with is_ready := false })
      (.store_head cur_head data_buffer))
  | .store_head cur_head data_buffer =>
    some { setDequeue s (.fetch_count data_buffer) with head := cur_head + 1 }
  | .fetch_count data_buffer =>
    some { setDequeue s .outside with
      count := s.count - 1
      dequeued := s.dequeued ++ [data_buffer] }

def step [DecidableEq P] (rb : MPSCRingBuffer) (s : State P) : Label P → Option (State P)
  | .enqueue p data => rb.enqueue s p data
  | .enqueueNext p => rb.enqueueNext s p
  | .dequeue buffer_size => dequeue s buffer_size
  | .dequeueNext => rb.dequeueNext s

inductive Step [DecidableEq P] (rb : MPSCRingBuffer) (s : State P) : Label P → State P → Prop
  | full {p : P} {data : List UInt8} (hcall : s.enqueue p = .outside)
      (hcount : rb.entry_num ≤ s.count) :
      Step rb s (.enqueue p data) { setEnqueue s p .back_off with
        count := s.count + 1
        calls := update s.calls p (s.calls p + 1) }
  | admitted {p : P} {data : List UInt8} (hcall : s.enqueue p = .outside)
      (hcount : s.count < rb.entry_num) :
      Step rb s (.enqueue p data) { setEnqueue s p (.fetch_tail data) with
        count := s.count + 1
        calls := update s.calls p (s.calls p + 1) }
  | back_off {p : P} (hcall : s.enqueue p = .back_off) :
      Step rb s (.enqueueNext p) { setEnqueue s p .outside with
        count := s.count - 1
        failed := s.failed ++ [(p, s.calls p)] }
  | fetch_tail {p : P} {data : List UInt8} (hcall : s.enqueue p = .fetch_tail data) :
      Step rb s (.enqueueNext p) { setEnqueue s p (.copy data s.tail) with
        tail := s.tail + 1
        issued := s.issued ++ [⟨(p, s.calls p), data, false⟩] }
  | copyIn {p : P} {data : List UInt8} {i : Nat} (hcall : s.enqueue p = .copy data i) :
      Step rb s (.enqueueNext p) (setEnqueue
        (rb.setEntryAt s i ((rb.entryAt s i).copyIn data)) p (.set_size data i))
  | set_size {p : P} {data : List UInt8} {i : Nat} (hcall : s.enqueue p = .set_size data i) :
      Step rb s (.enqueueNext p) (setEnqueue
        (rb.setEntryAt s i ((rb.entryAt s i).setSize data.length)) p (.set_ready data i))
  | set_ready {p : P} {data : List UInt8} {i : Nat} (hcall : s.enqueue p = .set_ready data i) :
      Step rb s (.enqueueNext p)
        { setEnqueue (rb.setEntryAt s i { rb.entryAt s i with is_ready := true }) p .outside with
          issued := Ticket.complete s.issued i }
  | noBuffer (hcall : s.dequeue = .outside) : Step rb s (.dequeue 0) s
  | size_head {n : Nat} (hcall : s.dequeue = .outside) :
      Step rb s (.dequeue n) (setDequeue s (.load_tail n s.head))
  | empty {n i : Nat} (hcall : s.dequeue = .load_tail n i) (htail : s.tail = i) :
      Step rb s .dequeueNext (setDequeue s .outside)
  | size_tail {n i : Nat} (hcall : s.dequeue = .load_tail n i) (htail : s.tail ≠ i) :
      Step rb s .dequeueNext (setDequeue s (.load_head n))
  | load_head {n : Nat} (hcall : s.dequeue = .load_head n) :
      Step rb s .dequeueNext (setDequeue s (.wait n s.head))
  | spin {n i : Nat} (hcall : s.dequeue = .wait n i) : Step rb s .dequeueNext s
  | ready {n i : Nat} (hcall : s.dequeue = .wait n i)
      (hready : (rb.entryAt s i).is_ready = true) :
      Step rb s .dequeueNext (setDequeue s (.copy n i))
  | copyOut {n i : Nat} (hcall : s.dequeue = .copy n i)
      (hsize : (rb.entryAt s i).remaining_size ≤ n) :
      Step rb s .dequeueNext (setDequeue s
        (.consume i ((rb.entryAt s i).data.take (rb.entryAt s i).remaining_size)))
  | partly {i : Nat} {data : List UInt8} (hcall : s.dequeue = .consume i data)
      (hsize : (rb.entryAt s i).remaining_size - data.length ≠ 0) :
      Step rb s .dequeueNext (setDequeue
        (rb.setEntryAt s i ((rb.entryAt s i).consume data.length)) .outside)
  | consume {i : Nat} {data : List UInt8} (hcall : s.dequeue = .consume i data) :
      Step rb s .dequeueNext (setDequeue (rb.setEntryAt s i
        { (rb.entryAt s i).consume data.length with dequeue_offset := 0 }) (.clear_ready i data))
  | clear_ready {i : Nat} {data : List UInt8} (hcall : s.dequeue = .clear_ready i data) :
      Step rb s .dequeueNext (setDequeue
        (rb.setEntryAt s i { rb.entryAt s i with is_ready := false }) (.store_head i data))
  | store_head {i : Nat} {data : List UInt8} (hcall : s.dequeue = .store_head i data) :
      Step rb s .dequeueNext { setDequeue s (.fetch_count data) with head := i + 1 }
  | fetch_count {data : List UInt8} (hcall : s.dequeue = .fetch_count data) :
      Step rb s .dequeueNext { setDequeue s .outside with
        count := s.count - 1
        dequeued := s.dequeued ++ [data] }

variable {rb : MPSCRingBuffer} {s t : State P}

theorem step_enqueue [DecidableEq P] {p : P} {data : List UInt8}
    (h : rb.enqueue s p data = some t) :
    Step rb s (.enqueue p data) t := by
  obtain ⟨⟨hcall, -⟩, rfl⟩ := ite_some_none_eq_some.mp h
  by_cases hcount : rb.entry_num ≤ s.count
  · rw [if_pos hcount]
    exact .full hcall hcount
  · rw [if_neg hcount]
    exact .admitted hcall (Nat.lt_of_not_le hcount)

theorem step_enqueueNext [DecidableEq P] {p : P} (h : rb.enqueueNext s p = some t) :
    Step rb s (.enqueueNext p) t := by
  rw [enqueueNext] at h
  split at h
  · cases h
  · rename_i hcall
    exact some.inj h ▸ .back_off hcall
  · rename_i hcall
    exact some.inj h ▸ .fetch_tail hcall
  · rename_i hcall
    exact some.inj h ▸ .copyIn hcall
  · rename_i hcall
    exact some.inj h ▸ .set_size hcall
  · rename_i hcall
    exact some.inj h ▸ .set_ready hcall

theorem step_dequeue [DecidableEq P] {n : Nat} (h : dequeue s n = some t) :
    Step rb s (.dequeue n) t := by
  obtain ⟨hcall, hnext⟩ := ite_none_right_eq_some.mp h
  split at hnext
  · rename_i hn
    subst hn
    exact some.inj hnext ▸ .noBuffer hcall
  · exact some.inj hnext ▸ .size_head hcall

theorem step_dequeueNext [DecidableEq P] (h : rb.dequeueNext s = some t) :
    Step rb s .dequeueNext t := by
  rw [dequeueNext] at h
  split at h
  · cases h
  · rename_i n i hcall
    split at h
    · exact some.inj h ▸ .empty hcall ‹_›
    · exact some.inj h ▸ .size_tail hcall ‹_›
  · rename_i hcall
    exact some.inj h ▸ .load_head hcall
  · rename_i hcall
    split at h
    · exact some.inj h ▸ .ready hcall ‹_›
    · exact some.inj h ▸ .spin hcall
  · rename_i hcall
    obtain ⟨hsize, hnext⟩ := ite_none_right_eq_some.mp h
    rw [hsize] at hnext
    exact some.inj hnext ▸ .copyOut hcall (by omega)
  · rename_i hcall
    dsimp only at h
    split at h
    · exact some.inj h ▸ .consume hcall
    · exact some.inj h ▸ .partly hcall ‹_›
  · rename_i hcall
    exact some.inj h ▸ .clear_ready hcall
  · rename_i hcall
    exact some.inj h ▸ .store_head hcall
  · rename_i hcall
    exact some.inj h ▸ .fetch_count hcall

theorem step_cases [DecidableEq P] {e : Label P} (h : rb.step s e = some t) : Step rb s e t := by
  cases e with
  | enqueue p data => exact step_enqueue h
  | enqueueNext p => exact step_enqueueNext h
  | dequeue n => exact step_dequeue h
  | dequeueNext => exact step_dequeueNext h

-- The messages have a size, and the buffers of the consumer are large enough for all of them.
def Admitted (largest : Nat) : State P → Label P → Prop
  | _, .enqueue _ data => 0 < data.length ∧ data.length ≤ largest
  | _, .dequeue buffer_size => largest ≤ buffer_size
  | _, _ => True

instance (largest : Nat) : ∀ (s : State P) (e : Label P), Decidable (Admitted largest s e)
  | _, .enqueue _ data => inferInstanceAs (Decidable (0 < data.length ∧ data.length ≤ largest))
  | _, .dequeue buffer_size => inferInstanceAs (Decidable (largest ≤ buffer_size))
  | _, .enqueueNext _ | _, .dequeueNext => inferInstanceAs (Decidable True)

def Short : Label P → Prop
  | .enqueue _ data => data.length < 2 ^ 32
  | _ => True

instance : ∀ e : Label P, Decidable (Short e)
  | .enqueue _ data => inferInstanceAs (Decidable (data.length < 2 ^ 32))
  | .enqueueNext _ | .dequeue _ | .dequeueNext => inferInstanceAs (Decidable True)

def nextToCopy (s : State P) : Nat :=
  match s.dequeue with
  | .consume .. | .clear_ready .. | .store_head .. => s.head + 1
  | _ => s.head

end MPSCRingBuffer

end Tigon.Common
