import Tigon.Common.WALLogger
import Tigon.Library.Transition

namespace Tigon.Common.Bytes

open List LogRecord Tigon.Library

structure LogBuffer where
  buffer : List UInt8
  txn_start_times : List Nat
deriving DecidableEq

namespace LogBuffer

def empty : LogBuffer := ⟨[], []⟩

def size (b : LogBuffer) : Nat := b.buffer.length

end LogBuffer

structure PashaGroupCommitLoggerSlave where
  cur_log_buffer : LogBuffer
  log_buffer_queue : List LogBuffer
  last_epoch : Nat
deriving DecidableEq

namespace PashaGroupCommitLoggerSlave

def start : PashaGroupCommitLoggerSlave := ⟨.empty, [], 0⟩

def push (s : PashaGroupCommitLoggerSlave) : Option PashaGroupCommitLoggerSlave :=
  if s.log_buffer_queue.length < max_log_buffer_queue_size then
    some { s with
      cur_log_buffer := .empty
      log_buffer_queue := s.log_buffer_queue ++ [s.cur_log_buffer] }
  else none

-- None: the bytes would be copied past the end of the buffer.
def memcpy (s : PashaGroupCommitLoggerSlave) (str : List UInt8) (persist : Bool)
    (txn_start_time : Nat) : Option PashaGroupCommitLoggerSlave :=
  if s.cur_log_buffer.size + str.length ≤ max_buffer_size then
    some { s with cur_log_buffer :=
      ⟨s.cur_log_buffer.buffer ++ str,
        s.cur_log_buffer.txn_start_times ++ if persist then [txn_start_time] else []⟩ }
  else none

def write (s : PashaGroupCommitLoggerSlave) (cur_epoch : Nat) (str : List UInt8) (persist : Bool)
    (txn_start_time : Nat) : Option PashaGroupCommitLoggerSlave :=
  if max_buffer_size < s.cur_log_buffer.size + str.length ∨ s.last_epoch < cur_epoch then
    if 0 < s.cur_log_buffer.size then
      s.push.bind fun s => { s with last_epoch := cur_epoch }.memcpy str persist txn_start_time
    else { s with last_epoch := cur_epoch }.memcpy str persist txn_start_time
  else s.memcpy str persist txn_start_time

end PashaGroupCommitLoggerSlave

-- A call of write that has returned: what it was given and the epoch it loaded.
structure WriteCall where
  str : List UInt8
  persist : Bool
  cur_epoch : Nat
deriving DecidableEq

-- A worker's logger with the global epoch, the buffers the logger thread has taken from
-- the queue and the calls made so far, both in order.
structure Worker where
  cxl_global_epoch : Nat
  slave : PashaGroupCommitLoggerSlave
  taken : List LogBuffer
  calls : List WriteCall
deriving DecidableEq

namespace Worker

inductive Label
  | advance (epoch : Nat)
  | write (str : List UInt8) (persist : Bool) (txn_start_time : Nat)
  | pop

def step (w : Worker) : Label → Option Worker
  | .advance epoch =>
    if w.cxl_global_epoch ≤ epoch then some { w with cxl_global_epoch := epoch } else none
  | .write str persist txn_start_time =>
    (w.slave.write w.cxl_global_epoch str persist txn_start_time).map fun slave =>
      { w with slave := slave, calls := w.calls ++ [⟨str, persist, w.cxl_global_epoch⟩] }
  | .pop =>
    match w.slave.log_buffer_queue with
    | [] => none
    | b :: rest =>
      some { w with
        slave := { w.slave with log_buffer_queue := rest }
        taken := w.taken ++ [b] }

def Fits : Label → Prop
  | .write str _ _ => 1 ≤ str.length ∧ str.length ≤ max_buffer_size
  | _ => True

instance (l : Label) : Decidable (Fits l) := by
  cases l <;> unfold Fits <;> infer_instance

def init (epoch : Nat) : Worker := ⟨epoch, .start, [], []⟩

def pushed (w : Worker) : List LogBuffer := w.taken ++ w.slave.log_buffer_queue

end Worker

def WriteCall.record (c : WriteCall) : LogRecord WriteCall := ⟨c, 0, c.str.length, c.persist⟩

structure Carries (b : LogBuffer) (r : Common.LogBuffer WriteCall) : Prop where
  bytes : b.buffer = r.records.flatMap (·.txn.str)
  records : ∀ x ∈ r.records, x = x.txn.record
  times : b.txn_start_times.length = r.txnCount

structure Refines (s : PashaGroupCommitLoggerSlave)
    (r : Common.PashaGroupCommitLoggerSlave WriteCall) : Prop where
  cur : Carries s.cur_log_buffer r.cur_log_buffer
  queue : List.Forall₂ Carries s.log_buffer_queue r.log_buffer_queue
  epoch : s.last_epoch = r.last_epoch

section Refinement

variable {b : LogBuffer} {rb : Common.LogBuffer WriteCall}
  {s s' : PashaGroupCommitLoggerSlave} {r r' : Common.PashaGroupCommitLoggerSlave WriteCall}

theorem Carries.size (h : Carries b rb) : b.size = rb.size := by
  have hsizes : rb.records.map LogRecord.size = rb.records.map (·.txn.str.length) := by
    apply map_congr_left
    intro x hx
    rw [h.records x hx]
    rfl
  rw [LogBuffer.size, h.bytes, length_flatMap, Common.LogBuffer.size, hsizes]

theorem carries_empty : Carries .empty .empty :=
  ⟨rfl, nofun, rfl⟩

theorem Carries.append (h : Carries b rb) (c : WriteCall) (time : Nat) :
    Carries ⟨b.buffer ++ c.str, b.txn_start_times ++ if c.persist then [time] else []⟩
      ⟨rb.records ++ [c.record]⟩ where
  bytes := by
    rw [flatMap_append, h.bytes]
    simp [WriteCall.record]
  records := by
    intro x hx
    rcases mem_append.mp hx with hx | hx
    · exact h.records x hx
    · rw [mem_singleton.mp hx]
      rfl
  times := by
    rw [length_append, h.times]
    cases hp : c.persist <;> simp [Common.LogBuffer.txnCount, WriteCall.record, hp]

theorem Refines.memcpy (h : Refines s r) {c : WriteCall} {time : Nat}
    (hs : s.memcpy c.str c.persist time = some s') :
    ∃ r', r.append c.record = some r' ∧ Refines s' r' := by
  obtain ⟨hfits, rfl⟩ := Option.ite_some_none_eq_some.mp hs
  rw [h.cur.size] at hfits
  refine ⟨_, if_pos hfits, ?_, h.queue, h.epoch⟩
  exact h.cur.append c time

theorem Refines.push (h : Refines s r) (hs : s.push = some s') :
    ∃ r', r.push = some r' ∧ Refines s' r' := by
  obtain ⟨hroom, rfl⟩ := Option.ite_some_none_eq_some.mp hs
  rw [h.queue.length_eq] at hroom
  refine ⟨_, if_pos hroom, carries_empty, ?_, h.epoch⟩
  exact rel_append h.queue (.cons h.cur .nil)

theorem Refines.withEpoch (h : Refines s r) (epoch : Nat) :
    Refines { s with last_epoch := epoch } { r with last_epoch := epoch } :=
  ⟨h.cur, h.queue, rfl⟩

theorem Refines.write (h : Refines s r) {c : WriteCall} {time : Nat}
    (hs : s.write c.cur_epoch c.str c.persist time = some s') :
    ∃ r', r.write c.cur_epoch c.record = some r' ∧ Refines s' r' := by
  have hsize : c.record.size = c.str.length := rfl
  rw [PashaGroupCommitLoggerSlave.write, h.cur.size, h.epoch] at hs
  rw [Common.PashaGroupCommitLoggerSlave.write, hsize]
  by_cases hnew : max_buffer_size < r.cur_log_buffer.size + c.str.length
      ∨ r.last_epoch < c.cur_epoch
  · rw [if_pos hnew] at hs ⊢
    by_cases hpos : 0 < r.cur_log_buffer.size
    · rw [if_pos hpos] at hs ⊢
      obtain ⟨s₁, hpush, hcopy⟩ := Option.bind_eq_some_iff.mp hs
      obtain ⟨r₁, hpushr, h₁⟩ := h.push hpush
      obtain ⟨r', happend, h'⟩ := (h₁.withEpoch c.cur_epoch).memcpy hcopy
      exact ⟨r', Option.bind_eq_some_iff.mpr ⟨r₁, hpushr, happend⟩, h'⟩
    · rw [if_neg hpos] at hs ⊢
      exact (h.withEpoch c.cur_epoch).memcpy hs
  · rw [if_neg hnew] at hs ⊢
    exact h.memcpy hs

end Refinement

section Grouping

def OneEpoch (rb : Common.LogBuffer WriteCall) (epoch : Nat) : Prop :=
  ∀ x ∈ rb.records, x.txn.cur_epoch = epoch

-- The pushed buffers are full groups; the current one is a group of the last epoch.
structure Grouped (epoch : Nat) (pushed : List (Common.LogBuffer WriteCall))
    (cur : Common.LogBuffer WriteCall) (last_epoch : Nat) : Prop where
  full : ∀ b ∈ pushed, 0 < b.size ∧ b.size ≤ max_buffer_size ∧ ∃ e, OneEpoch b e
  fits : cur.size ≤ max_buffer_size
  current : OneEpoch cur last_epoch
  nonempty : ∀ x ∈ cur.records, 0 < x.size
  epoch_le : last_epoch ≤ epoch

variable {epoch last_epoch : Nat} {pushed : List (Common.LogBuffer WriteCall)}
  {cur : Common.LogBuffer WriteCall}

theorem Grouped.push (h : Grouped epoch pushed cur last_epoch) (hpos : 0 < cur.size) :
    Grouped epoch (pushed ++ [cur]) .empty epoch where
  full := by
    intro b hb
    rcases mem_append.mp hb with hb | hb
    · exact h.full b hb
    · rw [mem_singleton.mp hb]
      exact ⟨hpos, h.fits, last_epoch, h.current⟩
  fits := Nat.zero_le _
  current := nofun
  nonempty := nofun
  epoch_le := Nat.le_refl epoch

theorem Grouped.withEpoch (h : Grouped epoch pushed cur last_epoch) (hzero : cur.size = 0) :
    Grouped epoch pushed cur epoch where
  full := h.full
  fits := h.fits
  current := by
    intro x hx
    have hpos := h.nonempty x hx
    have hnone := List.sum_eq_zero_iff_forall_eq_nat.mp hzero x.size
      (List.mem_map_of_mem (f := size) hx)
    omega
  nonempty := h.nonempty
  epoch_le := Nat.le_refl epoch

theorem Grouped.append (h : Grouped epoch pushed cur epoch) {c : WriteCall}
    (hepoch : c.cur_epoch = epoch) (hlen : 1 ≤ c.str.length)
    (hfits : cur.size + c.str.length ≤ max_buffer_size) :
    Grouped epoch pushed ⟨cur.records ++ [c.record]⟩ epoch where
  full := h.full
  fits := by
    simpa [Common.LogBuffer.size, WriteCall.record] using hfits
  current := by
    intro x hx
    rcases mem_append.mp hx with hx | hx
    · exact h.current x hx
    · rw [mem_singleton.mp hx]
      exact hepoch
  nonempty := by
    intro x hx
    rcases mem_append.mp hx with hx | hx
    · exact h.nonempty x hx
    · rw [mem_singleton.mp hx]
      exact hlen
  epoch_le := Nat.le_refl epoch

-- One write. The epoch it loads is the last epoch or a later one, so without a new buffer
-- it is the same.
theorem Grouped.write {taken : List (Common.LogBuffer WriteCall)}
    {r r' : Common.PashaGroupCommitLoggerSlave WriteCall}
    (h : Grouped epoch (taken ++ r.log_buffer_queue) r.cur_log_buffer r.last_epoch)
    {c : WriteCall} (hepoch : c.cur_epoch = epoch) (hlen : 1 ≤ c.str.length)
    (hr : r.write c.cur_epoch c.record = some r') :
    Grouped epoch (taken ++ r'.log_buffer_queue) r'.cur_log_buffer r'.last_epoch := by
  rw [Common.PashaGroupCommitLoggerSlave.write] at hr
  by_cases hnew : max_buffer_size < r.cur_log_buffer.size + c.record.size
      ∨ r.last_epoch < c.cur_epoch
  · rw [if_pos hnew] at hr
    by_cases hpos : 0 < r.cur_log_buffer.size
    · rw [if_pos hpos] at hr
      obtain ⟨r₁, hpush, happend⟩ := Option.bind_eq_some_iff.mp hr
      obtain ⟨-, rfl⟩ := Option.ite_some_none_eq_some.mp hpush
      obtain ⟨hfits, rfl⟩ := Option.ite_some_none_eq_some.mp happend
      have hpushed := h.push hpos
      rw [append_assoc] at hpushed
      subst hepoch
      exact hpushed.append rfl hlen hfits
    · rw [if_neg hpos] at hr
      obtain ⟨hfits, rfl⟩ := Option.ite_some_none_eq_some.mp hr
      subst hepoch
      exact (h.withEpoch (by omega)).append rfl hlen hfits
  · rw [if_neg hnew] at hr
    obtain ⟨hfits, rfl⟩ := Option.ite_some_none_eq_some.mp hr
    have hlast : r.last_epoch = epoch := by
      have := h.epoch_le
      omega
    rw [hlast] at h
    have happended := h.append hepoch hlen hfits
    rw [← hlast] at happended
    simpa [hlast] using happended

end Grouping

namespace Worker

variable {w w' : Worker}

structure Tracks (w : Worker) (r : Common.PashaGroupCommitLoggerSlave WriteCall)
    (taken : List (Common.LogBuffer WriteCall)) : Prop where
  refines : Refines w.slave r
  held : List.Forall₂ Carries w.taken taken
  grouped : Grouped w.cxl_global_epoch (taken ++ r.log_buffer_queue) r.cur_log_buffer r.last_epoch
  calls : taken.flatMap Common.LogBuffer.records ++ r.unsynced = w.calls.map WriteCall.record

theorem exists_tracks_init (epoch : Nat) : ∃ r taken, Tracks (init epoch) r taken := by
  refine ⟨.start, [], ⟨carries_empty, .nil, rfl⟩, .nil, ?_, rfl⟩
  exact ⟨nofun, Nat.zero_le _, nofun, nofun, Nat.zero_le _⟩

theorem exists_tracks_step {r : Common.PashaGroupCommitLoggerSlave WriteCall}
    {taken : List (Common.LogBuffer WriteCall)} (h : Tracks w r taken) {l : Label}
    (hfits : Fits l) (hstep : step w l = some w') : ∃ r' taken', Tracks w' r' taken' := by
  cases l with
  | advance epoch =>
    obtain ⟨hle, rfl⟩ := Option.ite_some_none_eq_some.mp hstep
    refine ⟨r, taken, h.refines, h.held, ?_, h.calls⟩
    have hepoch := h.grouped.epoch_le
    exact { h.grouped with epoch_le := Nat.le_trans hepoch hle }
  | write str persist txn_start_time =>
    obtain ⟨slave, hwrite, rfl⟩ := Option.map_eq_some_iff.mp hstep
    have hcall := h.refines.write (c := ⟨str, persist, w.cxl_global_epoch⟩) hwrite
    obtain ⟨r', hr, hrefines⟩ := hcall
    refine ⟨r', taken, hrefines, h.held, h.grouped.write rfl hfits.1 hr, ?_⟩
    rw [Common.PashaGroupCommitLoggerSlave.unsynced_write hr, ← append_assoc, h.calls,
      map_append]
    rfl
  | pop =>
    simp only [step] at hstep
    split at hstep
    case h_1 => cases hstep
    case h_2 b rest hqueue =>
    cases hstep
    have hcarries := h.refines.queue
    rw [hqueue] at hcarries
    obtain ⟨rb, rrest, hb, hrest, hrq⟩ := List.forall₂_cons_left_iff.mp hcarries
    refine ⟨{ r with log_buffer_queue := rrest }, taken ++ [rb],
      ⟨h.refines.cur, hrest, h.refines.epoch⟩, rel_append h.held (.cons hb .nil), ?_, ?_⟩
    · have hgrouped := h.grouped
      rw [hrq] at hgrouped
      simpa using hgrouped
    · rw [← h.calls, Common.PashaGroupCommitLoggerSlave.unsynced_cons hrq]
      simp

theorem exists_tracks {epoch : Nat} (hreach : Reach step (fun _ l => Fits l) (init epoch) w) :
    ∃ r taken, Tracks w r taken := by
  refine hreach.invariant (P := fun w => ∃ r taken, Tracks w r taken) (exists_tracks_init epoch) ?_
  rintro w l w' ⟨r, taken, h⟩ hfits hstep
  exact exists_tracks_step h hfits hstep

def callsOf (rb : Common.LogBuffer WriteCall) : List WriteCall := rb.records.map txn

theorem bytes_of_carries {b : LogBuffer} {rb : Common.LogBuffer WriteCall} (h : Carries b rb) :
    b.buffer = (callsOf rb).flatMap WriteCall.str := by
  rw [h.bytes, callsOf, flatMap_map]

theorem map_bytes_of_carries {bs : List LogBuffer} {rbs : List (Common.LogBuffer WriteCall)}
    (h : List.Forall₂ Carries bs rbs) :
    bs.map LogBuffer.buffer = rbs.map fun rb => (callsOf rb).flatMap WriteCall.str := by
  induction h with
  | nil => rfl
  | cons hb _ ih => rw [map_cons, map_cons, ih, bytes_of_carries hb]

theorem forall_of_carries {P : Nat → Prop} {bs : List LogBuffer}
    {rbs : List (Common.LogBuffer WriteCall)} (h : List.Forall₂ Carries bs rbs)
    (hP : ∀ rb ∈ rbs, P rb.size) : ∀ b ∈ bs, P b.size := by
  induction h with
  | nil => simp
  | cons hb _ ih =>
    rw [forall_mem_cons] at hP ⊢
    exact ⟨hb.size ▸ hP.1, ih hP.2⟩

theorem calls_eq_groups {r : Common.PashaGroupCommitLoggerSlave WriteCall}
    {taken : List (Common.LogBuffer WriteCall)} (h : Tracks w r taken) :
    w.calls = ((taken ++ r.log_buffer_queue).map callsOf).flatten ++ callsOf r.cur_log_buffer := by
  have htxns := congrArg (List.map txn) h.calls
  rw [map_map, show txn ∘ WriteCall.record = id from rfl, map_id] at htxns
  rw [← htxns, Common.PashaGroupCommitLoggerSlave.unsynced]
  simp only [callsOf, List.flatMap, map_append, map_flatten, map_map,
    flatten_append, append_assoc]
  rfl

-- Every pushed buffer holds the records of a list of successive calls with one epoch, and
-- so does the current one.
theorem buffers_hold_calls (epoch : Nat) (w : Worker)
    (hreach : Reach step (fun _ l => Fits l) (init epoch) w) :
    w.pushed.flatMap LogBuffer.buffer ++ w.slave.cur_log_buffer.buffer
        = w.calls.flatMap WriteCall.str
    ∧ (∀ b ∈ w.pushed, 0 < b.size ∧ b.size ≤ max_buffer_size)
    ∧ w.slave.cur_log_buffer.size ≤ max_buffer_size
    ∧ ∃ (groups : List (List WriteCall)) (current : List WriteCall),
        w.calls = groups.flatten ++ current
        ∧ w.pushed.map LogBuffer.buffer = groups.map (·.flatMap WriteCall.str)
        ∧ w.slave.cur_log_buffer.buffer = current.flatMap WriteCall.str
        ∧ ∀ group ∈ groups ++ [current], ∃ e, ∀ c ∈ group, c.cur_epoch = e := by
  obtain ⟨r, taken, h⟩ := exists_tracks hreach
  have hcarries : List.Forall₂ Carries w.pushed (taken ++ r.log_buffer_queue) :=
    rel_append h.held h.refines.queue
  have hpushed := map_bytes_of_carries hcarries
  have hcur := bytes_of_carries h.refines.cur
  have hcalls := calls_eq_groups h
  refine ⟨?_, ?_, ?_, (taken ++ r.log_buffer_queue).map callsOf, callsOf r.cur_log_buffer,
    hcalls, ?_, hcur, ?_⟩
  · rw [hcalls, flatMap_append, hcur, flatMap_def, hpushed, ← flatMap_def,
      ← flatMap_def, flatMap_assoc]
  · apply forall_of_carries (P := fun n => 0 < n ∧ n ≤ max_buffer_size) hcarries
    intro rb hrb
    obtain ⟨hpos, hle, -⟩ := h.grouped.full rb hrb
    exact ⟨hpos, hle⟩
  · rw [h.refines.cur.size]
    exact h.grouped.fits
  · rw [hpushed, map_map]
    rfl
  · intro group hgroup
    rcases mem_append.mp hgroup with hgroup | hgroup
    · obtain ⟨rb, hrb, rfl⟩ := mem_map.mp hgroup
      obtain ⟨-, -, e, he⟩ := h.grouped.full rb hrb
      refine ⟨e, ?_⟩
      intro c hc
      obtain ⟨x, hx, rfl⟩ := mem_map.mp hc
      exact he x hx
    · rw [mem_singleton.mp hgroup]
      refine ⟨r.last_epoch, ?_⟩
      intro c hc
      obtain ⟨x, hx, rfl⟩ := mem_map.mp hc
      exact h.grouped.current x hx

theorem buffers_hold_calls_epochChange :
    ∃ w : Worker, Reach step (fun _ l => Fits l) (init 0) w
      ∧ w.pushed.map LogBuffer.buffer = [[1, 2, 3]]
      ∧ w.pushed.flatMap LogBuffer.buffer ++ w.slave.cur_log_buffer.buffer
        = w.calls.flatMap WriteCall.str := by
  obtain ⟨w, hreach, hpushed⟩ := exists_reach_of_run step (fun _ l => Fits l) (init 0)
    [.write [1, 2] false 0, .write [3] true 5, .advance 1, .write [4] true 6, .pop]
    (fun w => w.pushed.map LogBuffer.buffer = [[1, 2, 3]]) (by decide +kernel)
  exact ⟨w, hreach, hpushed, (buffers_hold_calls 0 w hreach).1⟩

end Worker

end Tigon.Common.Bytes
