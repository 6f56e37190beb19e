import Tigon.Common.GroupCommitLogger

namespace Tigon.Common

open List Option FileOp Tigon.Library

namespace BufferedDirectFileWriter

variable {β : Type} {cfg : Config} {w w' : BufferedDirectFileWriter β} {str : List β}

def handed (w : BufferedDirectFileWriter β) : List β := w.file.flatMap bytes

-- No ::write is left without its fdatasync, and the buffer is not full.
structure Settled (w : BufferedDirectFileWriter β) : Prop where
  synced : synced w.file = w.handed
  room : w.buffer.length < BUFFER_SIZE

theorem synced_append_fdatasync (ops : List (FileOp β)) (bytes : List β) (padding : Nat) :
    FileOp.synced (ops ++ [.write bytes padding, .fdatasync])
      = (ops ++ [FileOp.write bytes padding, .fdatasync]).flatMap FileOp.bytes := by
  have hsplit : ops ++ [.write bytes padding, .fdatasync]
      = (ops ++ [.write bytes padding]) ++ [.fdatasync] := by simp
  rw [FileOp.synced, hsplit, rdropWhile_concat_neg _ _ _ (by simp [FileOp.isWrite])]

theorem flush_spec (hsynced : synced w.file = w.handed) (h : w.flush cfg = some w') :
    w'.buffer = [] ∧ w'.handed = w.handed ++ w.buffer ∧ synced w'.file = w'.handed := by
  have hwrite : ∀ padding, (⟨[], w.file ++ [.write w.buffer padding, .fdatasync]⟩ :
      BufferedDirectFileWriter β).handed = w.handed ++ w.buffer := by
    intro padding
    simp [handed, bytes]
  simp only [flush] at h
  split at h
  · split at h
    · cases h
      exact ⟨rfl, hwrite 0, synced_append_fdatasync _ _ _⟩
    · split at h
      · cases h
        exact ⟨rfl, hwrite _, synced_append_fdatasync _ _ _⟩
      · cases h
  · rename_i hempty
    cases h
    have hnil : w.buffer = [] := eq_nil_of_length_eq_zero (by omega)
    exact ⟨hnil, by rw [hnil, append_nil], hsynced⟩

theorem write_spec (hw : w.Settled) (h : w.write cfg str = some w') :
    w'.Settled ∧ w'.handed ++ w'.buffer = w.handed ++ w.buffer ++ str ∧
      w.handed.length ≤ w'.handed.length := by
  simp only [write] at h
  split at h
  · rename_i hfits
    cases h
    refine ⟨⟨hw.synced, ?_⟩, ?_, ?_⟩
    · rw [length_append]
      exact hfits
    · simp [handed]
    · simp [handed]
  · obtain ⟨u, hflush, h⟩ := bind_eq_some_iff.mp h
    obtain ⟨hbuffer, hhanded, hsynced⟩ := flush_spec (w := { w with
      buffer := w.buffer ++ str.take (BUFFER_SIZE - w.buffer.length) }) hw.synced hflush
    split at h
    · cases h
    · rename_i hroom
      cases h
      refine ⟨⟨hsynced, by simp only; omega⟩, ?_, ?_⟩
      · change u.handed ++ str.drop _ = _
        rw [hhanded]
        change w.handed ++ (w.buffer ++ str.take _) ++ str.drop _ = _
        simp only [append_assoc, take_append_drop]
      · change _ ≤ u.handed.length
        rw [hhanded, length_append]
        exact Nat.le_add_right _ _

theorem roundUp_le {n m b : Nat} (hn : n ≤ m) (hm : m % b = 0) : roundUp n b ≤ m := by
  simp only [roundUp]
  split
  · exact hn
  · split
    · exact hn
    · have hdiv := Nat.div_add_mod n b
      have hdiv' := Nat.div_add_mod m b
      have hlt : n / b < m / b := by
        by_contra hge
        have hle : b * (m / b) ≤ b * (n / b) := Nat.mul_le_mul_left b (by omega)
        omega
      have hle : b * (n / b + 1) ≤ b * (m / b) := Nat.mul_le_mul_left b hlt
      rw [Nat.mul_add] at hle
      omega

theorem flush_isSome (cfg : Config) (hlen : w.buffer.length ≤ BUFFER_SIZE) :
    (w.flush cfg).isSome := by
  simp only [flush]
  split
  · split
    · rfl
    · rw [if_pos (roundUp_le hlen cfg.block)]
      rfl
  · rfl

theorem write_isSome (cfg : Config) (hw : w.Settled) (hstr : str.length ≤ BUFFER_SIZE) :
    (w.write cfg str).isSome := by
  have hroom := hw.room
  simp only [write]
  split
  · rfl
  · have hlen : ({ w with
        buffer := w.buffer ++ str.take (BUFFER_SIZE - w.buffer.length) } :
        BufferedDirectFileWriter β).buffer.length ≤ BUFFER_SIZE := by
      simp only [length_append, length_take]
      omega
    obtain ⟨u, hflush⟩ := isSome_iff_exists.mp (flush_isSome cfg hlen)
    rw [hflush, bind_some, if_neg (by rw [length_drop]; omega)]
    rfl

end BufferedDirectFileWriter

def LoggerCall.record {β : Type} : LoggerCall β → Option (List β × Nat)
  | .idle => none
  | .writing str end_lsn _ | .returned str end_lsn _ => some (str, end_lsn)
  | .syncing str end_lsn | .polling str end_lsn => some (str, end_lsn)

def LoggerDaemon.flush_lsn : LoggerDaemon → Option Nat
  | .sleeping | .awake => none
  | .flushed flush_lsn _ | .storing flush_lsn => some flush_lsn

namespace GroupCommitLogger

open BufferedDirectFileWriter (BUFFER_SIZE Config write_spec flush_spec)

variable {T β : Type} {cfg : Config} {s s' : GroupCommitLogger T β} {i : T}

-- The log is what was handed over followed by what is in the buffer, and write_lsn is its
-- length while no call is in its mutex section. sync_lsn, also the next one, lies in the
-- part that was handed over.
structure Accounted (s : GroupCommitLogger T β) : Prop where
  settled : s.writer.Settled
  log : s.writer.handed ++ s.writer.buffer = s.log
  free : (∀ i, s.mutex ≠ some (some i)) → s.write_lsn = s.log.length
  sync : s.sync_lsn ≤ s.writer.handed.length
  flushed : ∀ lsn, s.daemon.flush_lsn = some lsn →
    s.mutex = some none ∧ lsn ≤ s.writer.handed.length

-- The record of a call ends at its end_lsn, and is handed over once a persisting call has
-- returned.
structure CallInv (s : GroupCommitLogger T β) (i : T) (call : LoggerCall β) : Prop where
  writing : ∀ str end_lsn persist, call = .writing str end_lsn persist →
    s.mutex = some (some i) ∧ s.write_lsn + str.length = s.log.length
  placed : ∀ str end_lsn, call.record = some (str, end_lsn) →
    end_lsn ≤ s.log.length ∧ str <:+ s.log.take end_lsn
  returned : ∀ str end_lsn, call = .returned str end_lsn true →
    end_lsn ≤ s.writer.handed.length

structure Inv (s : GroupCommitLogger T β) : Prop extends Accounted s where
  calls : ∀ i, s.CallInv i (s.threads i)

theorem inv_start : (start : GroupCommitLogger T β).Inv :=
  ⟨⟨⟨rfl, by simp [start, BUFFER_SIZE]⟩, rfl, fun _ => rfl, le_rfl, nofun⟩,
    fun _ => ⟨nofun, nofun, nofun⟩⟩

theorem CallInv.frame {call : LoggerCall β} (h : s.CallInv i call)
    (hnot : s.mutex ≠ some (some i)) (hlog : s.log <+: s'.log)
    (hhanded : s.writer.handed.length ≤ s'.writer.handed.length) : s'.CallInv i call := by
  refine ⟨fun _ _ _ hw => absurd (h.writing _ _ _ hw).1 hnot, ?_, ?_⟩
  · intro str end_lsn hrecord
    obtain ⟨hle, hsuffix⟩ := h.placed _ _ hrecord
    obtain ⟨rest, hrest⟩ := hlog
    rw [← hrest, length_append, take_append_of_le_length hle]
    exact ⟨by omega, hsuffix⟩
  · intro str end_lsn hret
    exact (h.returned _ _ hret).trans hhanded

theorem CallInv.goesOn {call call' : LoggerCall β} (h : s.CallInv i call)
    (hrecord : call'.record = call.record) (hlog : s'.log = s.log)
    (hwriting : ∀ str end_lsn persist, call' ≠ .writing str end_lsn persist)
    (hreturned : ∀ str end_lsn, call' = .returned str end_lsn true →
      end_lsn ≤ s'.writer.handed.length) : s'.CallInv i call' := by
  refine ⟨fun _ _ _ hw => absurd hw (hwriting _ _ _), ?_, hreturned⟩
  intro str end_lsn hr
  rw [hlog]
  exact h.placed str end_lsn (hrecord ▸ hr)

variable [DecidableEq T]

theorem calls_update {call : LoggerCall β} (hcall : s'.CallInv i call)
    (hothers : ∀ j ≠ i, s'.CallInv j (s.threads j)) (j : T) :
    s'.CallInv j (Function.update s.threads i call j) := by
  by_cases hji : j = i
  · subst hji
    rw [Function.update_self]
    exact hcall
  · rw [Function.update_of_ne hji]
    exact hothers j hji

theorem enter_eq_some {str : List β} {persist : Bool} (h : s.write cfg i str persist = some s') :
    s.mutex = none ∧ s.enter cfg i str persist = some s' := by
  unfold write at h
  split at h
  · rename_i hok
    refine ⟨hok.2, ?_⟩
    cases hcall : s.threads i with
    | idle | returned str' end_lsn persist' =>
      rw [hcall] at h
      exact h
    | writing str' end_lsn persist' | syncing str' end_lsn | polling str' end_lsn =>
      rw [hcall] at h
      cases h
  · cases h

theorem inv_write {str : List β} {persist : Bool} (hs : s.Inv)
    (h : s.write cfg i str persist = some s') : s'.Inv := by
  obtain ⟨hmutex, h⟩ := enter_eq_some h
  obtain ⟨w, hwrite, rfl⟩ := map_eq_some_iff.mp h
  obtain ⟨hsettled, hlog, hmono⟩ := write_spec hs.settled hwrite
  have hlsn := hs.free (by simp [hmutex])
  refine ⟨⟨hsettled, ?_, fun hfree => absurd rfl (hfree i), hs.sync.trans hmono, ?_⟩, ?_⟩
  · change w.handed ++ w.buffer = s.log ++ str
    rw [hlog, hs.log]
  · intro lsn hflush
    have hheld := (hs.flushed lsn hflush).1
    rw [hmutex] at hheld
    cases hheld
  · refine calls_update ⟨?_, ?_, nofun⟩ fun j _ =>
      (hs.calls j).frame (by simp [hmutex]) (prefix_append _ _) hmono
    · rintro str' end_lsn persist' ⟨rfl, rfl, rfl⟩
      refine ⟨rfl, ?_⟩
      change s.write_lsn + str.length = (s.log ++ str).length
      rw [hlsn, length_append]
    · rintro str' end_lsn ⟨rfl, rfl⟩
      change _ ≤ (s.log ++ str).length ∧ str <:+ (s.log ++ str).take _
      rw [hlsn, ← length_append, take_length]
      exact ⟨le_rfl, suffix_append _ _⟩

theorem inv_advance (hs : s.Inv) (h : s.advance i = some s') : s'.Inv := by
  unfold advance at h
  split at h
  · rename_i str end_lsn persist hcall
    cases h
    obtain ⟨hmutex, hlsn⟩ := (hs.calls i).writing _ _ _ hcall
    refine ⟨⟨hs.settled, hs.log, fun _ => hlsn, hs.sync, fun lsn hflush => ?_⟩, ?_⟩
    · have hheld := (hs.flushed lsn hflush).1
      rw [hmutex] at hheld
      cases hheld
    · refine calls_update ?_ fun j hji => (hs.calls j).frame ?_ (prefix_refl _) le_rfl
      · cases persist with
        | true | false => exact (hs.calls i).goesOn (by rw [hcall]; rfl) rfl nofun nofun
      · rw [hmutex]
        rintro ⟨rfl⟩
        exact hji rfl
  · cases h

theorem inv_enlist (hs : s.Inv) (h : s.enlist i = some s') : s'.Inv := by
  unfold enlist at h
  split at h
  · rename_i str end_lsn hcall
    cases h
    refine ⟨⟨hs.settled, hs.log, hs.free, hs.sync, hs.flushed⟩, calls_update ?_ fun j _ => ?_⟩
    · exact (hs.calls i).goesOn (by rw [hcall]; rfl) rfl nofun nofun
    · exact ⟨(hs.calls j).writing, (hs.calls j).placed, (hs.calls j).returned⟩
  · cases h

theorem inv_poll (hs : s.Inv) (h : s.poll i = some s') : s'.Inv := by
  unfold poll at h
  split at h
  · rename_i str end_lsn hcall
    split at h
    · cases h
      exact hs
    · rename_i hreached
      cases h
      have hsync := hs.sync
      refine ⟨⟨hs.settled, hs.log, hs.free, hs.sync, hs.flushed⟩, calls_update ?_ fun j _ => ?_⟩
      · refine (hs.calls i).goesOn (by rw [hcall]; rfl) rfl nofun ?_
        rintro _ _ ⟨rfl, rfl⟩
        change _ ≤ s.writer.handed.length
        omega
      · exact ⟨(hs.calls j).writing, (hs.calls j).placed, (hs.calls j).returned⟩
  · cases h

section

omit [DecidableEq T]

theorem inv_check {elapsed : Bool} (hs : s.Inv) (h : s.check cfg elapsed = some s') : s'.Inv := by
  unfold check at h
  split at h
  · cases h
    split
    · exact ⟨⟨hs.settled, hs.log, hs.free, hs.sync, nofun⟩,
        fun i => ⟨(hs.calls i).writing, (hs.calls i).placed, (hs.calls i).returned⟩⟩
    · exact hs
  · cases h

-- Behind the flush everything in front of write_lsn is handed over, also if there was
-- nothing to flush.
theorem flushAll_spec (hs : s.Inv) (hmutex : s.mutex = none) (h : s.flushAll cfg = some s') :
    ∃ w, s' = { s with writer := w } ∧ w.Settled ∧ w.handed ++ w.buffer = s.log ∧
      s.writer.handed.length ≤ w.handed.length ∧ s.write_lsn ≤ w.handed.length := by
  have hlsn := hs.free (by simp [hmutex])
  unfold flushAll at h
  split at h
  · obtain ⟨w, hflush, rfl⟩ := map_eq_some_iff.mp h
    obtain ⟨hbuffer, hhanded, hsynced⟩ := flush_spec hs.settled.synced hflush
    have hall : w.handed = s.log := hhanded.trans hs.log
    refine ⟨w, rfl, ⟨hsynced, ?_⟩, ?_, ?_, ?_⟩
    · simp [hbuffer, BUFFER_SIZE]
    · rw [hbuffer, append_nil, hall]
    · rw [hhanded, length_append]
      exact Nat.le_add_right _ _
    · rw [hall, hlsn]
  · rename_i hreached
    cases h
    have hsync := hs.sync
    exact ⟨s.writer, rfl, hs.settled, hs.log, le_rfl, by omega⟩

theorem inv_do_sync {elapsed : Bool} (hs : s.Inv) (h : s.do_sync cfg elapsed = some s') :
    s'.Inv := by
  unfold do_sync at h
  split at h
  · rename_i hok
    split at h
    · obtain ⟨u, hflush, rfl⟩ := map_eq_some_iff.mp h
      obtain ⟨w, rfl, hsettled, hlog, hmono, hlsn⟩ := flushAll_spec hs hok.2 hflush
      refine ⟨⟨hsettled, hlog, fun _ => hs.free (by simp [hok.2]), hs.sync.trans hmono, ?_⟩,
        fun i => (hs.calls i).frame (by simp [hok.2]) (prefix_refl _) hmono⟩
      rintro lsn ⟨rfl⟩
      exact ⟨rfl, hlsn⟩
    · cases h
      exact ⟨⟨hs.settled, hs.log, hs.free, hs.sync, nofun⟩,
        fun i => ⟨(hs.calls i).writing, (hs.calls i).placed, (hs.calls i).returned⟩⟩
  · cases h

theorem inv_decrease (hs : s.Inv) (h : s.decrease = some s') : s'.Inv := by
  unfold decrease at h
  split at h
  · rename_i flush_lsn waiting_sync_cnt hdaemon
    cases h
    refine ⟨⟨hs.settled, hs.log, hs.free, hs.sync, ?_⟩,
      fun i => ⟨(hs.calls i).writing, (hs.calls i).placed, (hs.calls i).returned⟩⟩
    rintro lsn ⟨rfl⟩
    exact hs.flushed flush_lsn (by rw [hdaemon]; rfl)
  · cases h

theorem inv_store (hs : s.Inv) (h : s.store = some s') : s'.Inv := by
  unfold store at h
  split at h
  · rename_i flush_lsn hdaemon
    cases h
    obtain ⟨hmutex, hle⟩ := hs.flushed flush_lsn (by rw [hdaemon]; rfl)
    refine ⟨⟨hs.settled, hs.log, fun _ => hs.free (by simp [hmutex]), hle, nofun⟩,
      fun i => (hs.calls i).frame (by simp [hmutex]) (prefix_refl _) le_rfl⟩
  · cases h

end

theorem inv_step {l : LoggerLabel T β} (hs : s.Inv) (h : s.step cfg l = some s') : s'.Inv := by
  cases l with
  | write i str persist => exact inv_write hs h
  | advance i => exact inv_advance hs h
  | enlist i => exact inv_enlist hs h
  | poll i => exact inv_poll hs h
  | check elapsed => exact inv_check hs h
  | do_sync elapsed => exact inv_do_sync hs h
  | decrease => exact inv_decrease hs h
  | store => exact inv_store hs h

-- The synced part of the file is the front of the log and reaches to sync_lsn and to the
-- end_lsn of every persisting call that has returned, with the call's record right in front
-- of it; and the next call meets no failing CHECK.
theorem synced_before_return (hreach : Reach (step cfg) (fun _ _ => True) start s) :
    synced s.writer.file <+: s.log ∧
      s.sync_lsn ≤ (synced s.writer.file).length ∧
      (∀ i str end_lsn, s.threads i = .returned str end_lsn true →
        end_lsn ≤ (synced s.writer.file).length ∧
          (synced s.writer.file).take end_lsn = s.log.take end_lsn ∧
          str <:+ s.log.take end_lsn) ∧
      (∀ str : List β, str.length ≤ BUFFER_SIZE → (s.writer.write cfg str).isSome) ∧
      (s.writer.sync cfg).isSome := by
  have hs : s.Inv := hreach.invariant inv_start fun _ _ _ hs _ hstep => inv_step hs hstep
  have hfront : s.writer.handed <+: s.log := ⟨_, hs.log⟩
  rw [hs.settled.synced]
  refine ⟨hfront, hs.sync, fun i str end_lsn hret => ?_,
    fun str hstr => BufferedDirectFileWriter.write_isSome cfg hs.settled hstr,
    BufferedDirectFileWriter.flush_isSome cfg (le_of_lt hs.settled.room)⟩
  have hle := (hs.calls i).returned _ _ hret
  obtain ⟨-, hsuffix⟩ := (hs.calls i).placed str end_lsn (by rw [hret]; rfl)
  refine ⟨hle, ?_, hsuffix⟩
  obtain ⟨rest, hrest⟩ := hfront
  rw [← hrest, take_append_of_le_length hle]

theorem synced_before_return_of_two_records :
    ∃ s : GroupCommitLogger Bool Nat,
      s.threads true = .returned [3] 3 true ∧
      (synced s.writer.file).take 3 = [1, 2, 3] := by
  obtain ⟨s, hreach, hret, hlog⟩ := exists_reach_of_run
    (step (T := Bool) (β := Nat) ⟨4096, 0, 1, by decide⟩) (fun _ _ => True) start
    [.write false [1, 2] false, .advance false, .write true [3] true, .advance true, .enlist true,
      .poll true, .check false, .do_sync false, .decrease, .store, .poll true]
    (fun s => s.threads true = .returned [3] 3 true ∧ s.log.take 3 = [1, 2, 3])
    (by decide +kernel)
  refine ⟨s, hret, ?_⟩
  rw [((synced_before_return hreach).2.2.1 true [3] 3 hret).2.1]
  exact hlog

end GroupCommitLogger

end Tigon.Common
