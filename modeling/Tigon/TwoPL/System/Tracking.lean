import Mathlib.Data.List.TakeWhile
import Tigon.Library.Mailbox
import Tigon.TwoPL.System

namespace Tigon.TwoPL

open List TwoPLMessage

open Tigon.Library Tigon.Protocol.LockWord

inductive Purpose
  | lock
  | prepare
  | write
  | release
deriving DecidableEq

namespace TwoPLMessage

variable {κ α : Type}

def purpose : TwoPLMessage κ α → Purpose
  | LOCK_REQUEST .. => .lock
  | LOCK_RESPONSE .. => .lock
  | ABORT_REQUEST .. => .release
  | PREPARE_REQUEST => .prepare
  | PREPARE_RESPONSE => .prepare
  | WRITE_REQUEST .. => .write
  | WRITE_RESPONSE => .write
  | RELEASE_READ_LOCK_REQUEST .. => .release
  | RELEASE_WRITE_LOCK_REQUEST .. => .release

def offset : TwoPLMessage κ α → Option Nat
  | LOCK_REQUEST _ _ i => some i
  | LOCK_RESPONSE _ i _ => some i
  | ABORT_REQUEST _ _ i => some i
  | RELEASE_READ_LOCK_REQUEST _ i => some i
  | RELEASE_WRITE_LOCK_REQUEST _ _ i => some i
  | _ => none

def isAwaited (m : TwoPLMessage κ α) : Bool := m.purpose != .release

end TwoPLMessage

variable {κ α : Type}

@[simp]
theorem releaseMessage_purpose (commit_tid : Option Word) (kind : LockKind) (k : κ) (i : Nat) :
    (releaseMessage commit_tid kind k i : TwoPLMessage κ α).purpose = .release := by
  cases commit_tid <;> cases kind <;> rfl

@[simp]
theorem releaseMessage_offset (commit_tid : Option Word) (kind : LockKind) (k : κ) (i : Nat) :
    (releaseMessage commit_tid kind k i : TwoPLMessage κ α).offset = some i := by
  cases commit_tid <;> cases kind <;> rfl

def Stage.purpose : Stage κ α → Option Purpose
  | .executing => none
  | .requests _ => some .lock
  | .preparing => some .prepare
  | .writing .. => some .write
  | .releasing .. => some .release
  | .aborting _ => some .release

-- The lock of read key `i` has still to be released by its transaction.
def Stage.Owes (i : Nat) (kind : LockKind) : Stage κ α → Prop
  | .releasing _ todo => (i, kind) ∈ todo
  | .aborting todo => (i, kind) ∈ todo
  | _ => True

namespace ReadKey

variable {r : ReadKey κ α}

def NoLock (r : ReadKey κ α) : Prop := ∀ kind, r.get_lock_bit kind = false

def HasLock (r : ReadKey κ α) : Prop := ∀ kind, r.get_lock_bit kind = (kind == r.lock_request)

theorem NoLock.receive (h : r.NoLock) (value : α) (tid : Word) :
    (r.receive r.lock_request value tid).HasLock := by
  have hread : r.read_lock_bit = false := h .read
  have hwrite : r.write_lock_bit = false := h .write
  intro kind
  obtain ⟨key, lock_request, v, tid', processed, read_lock_bit, write_lock_bit⟩ := r
  simp only at hread hwrite
  subst hread hwrite
  cases lock_request <;> cases kind <;> rfl

theorem HasLock.lock_request_eq {kind : LockKind} (h : r.HasLock)
    (hbit : r.get_lock_bit kind = true) : r.lock_request = kind := by
  have hkind := (h kind).symm.trans hbit
  exact (beq_iff_eq.mp hkind).symm

theorem HasLock.bit (h : r.HasLock) : r.get_lock_bit r.lock_request = true := by
  rw [h, beq_self_eq_true]

theorem NoLock.not_bit {kind : LockKind} (h : r.NoLock) : r.get_lock_bit kind ≠ true := by
  rw [h]
  exact Bool.false_ne_true

@[simp]
theorem receive_processed (kind : LockKind) (value : α) (tid : Word) :
    (r.receive kind value tid).processed = r.processed := by
  cases kind <;> rfl

@[simp]
theorem receive_key (kind : LockKind) (value : α) (tid : Word) :
    (r.receive kind value tid).key = r.key := by
  cases kind <;> rfl

@[simp]
theorem receive_lock_request (kind : LockKind) (value : α) (tid : Word) :
    (r.receive kind value tid).lock_request = r.lock_request := by
  cases kind <;> rfl

@[simp]
theorem set_processed_key : r.set_processed.key = r.key := rfl

@[simp]
theorem set_processed_lock_request : r.set_processed.lock_request = r.lock_request := rfl

theorem HasLock.set_processed (h : r.HasLock) : r.set_processed.HasLock := by
  intro kind
  rw [set_processed_lock_request, ← h kind]
  cases kind <;> rfl

end ReadKey

-- The life of a lock request: what is in flight for read key `i` and which lock it has on
-- which row. `owed` says that a lock taken is still the transaction's to release.
inductive Phase (i : Nat) (owed : LockKind → Prop) (failed : Prop) :
    Option (ReadKey κ α) → List (TwoPLMessage κ α) → Option (κ × LockKind) → Prop
  | absent : Phase i owed failed none [] none
  | fresh {r : ReadKey κ α} (hbits : r.NoLock) (hprocessed : r.processed = false) :
      Phase i owed failed (some r) [] none
  | requested {r : ReadKey κ α} (hbits : r.NoLock) (hprocessed : r.processed = true) :
      Phase i owed failed (some r) [.LOCK_REQUEST r.lock_request r.key i] none
  | answered {r : ReadKey κ α} (result : α × Word) (hbits : r.NoLock)
      (hprocessed : r.processed = true) :
      Phase i owed failed (some r) [.LOCK_RESPONSE r.lock_request i (some result)]
        (some (r.key, r.lock_request))
  | refused {r : ReadKey κ α} (hbits : r.NoLock) (hprocessed : r.processed = true) :
      Phase i owed failed (some r) [.LOCK_RESPONSE r.lock_request i none] none
  | failed {r : ReadKey κ α} (hbits : r.NoLock) (hprocessed : r.processed = true)
      (hfailed : failed) : Phase i owed failed (some r) [] none
  | held {r : ReadKey κ α} (hbits : r.HasLock) (hprocessed : r.processed = true)
      (howed : owed r.lock_request) :
      Phase i owed failed (some r) [] (some (r.key, r.lock_request))
  | leaving {r : ReadKey κ α} (commit_tid : Option Word) (hbits : r.HasLock)
      (hprocessed : r.processed = true) (howed : ¬ owed r.lock_request) :
      Phase i owed failed (some r) [releaseMessage commit_tid r.lock_request r.key i]
        (some (r.key, r.lock_request))
  | left {r : ReadKey κ α} (hbits : r.HasLock) (hprocessed : r.processed = true)
      (howed : ¬ owed r.lock_request) : Phase i owed failed (some r) [] none

namespace Phase

variable {i : Nat} {owed owed' : LockKind → Prop} {hasFailed hasFailed' : Prop}
  {key : Option (ReadKey κ α)} {r : ReadKey κ α} {messages : List (TwoPLMessage κ α)}
  {lock : Option (κ × LockKind)} {kind : LockKind}

theorem mono (h : Phase i owed hasFailed key messages lock)
    (howed : ∀ r kind, key = some r → r.get_lock_bit kind = true → (owed kind ↔ owed' kind))
    (hfailed : hasFailed → hasFailed') : Phase i owed' hasFailed' key messages lock := by
  cases h with
  | absent => exact .absent
  | fresh hbits hprocessed => exact .fresh hbits hprocessed
  | requested hbits hprocessed => exact .requested hbits hprocessed
  | answered result hbits hprocessed => exact .answered result hbits hprocessed
  | refused hbits hprocessed => exact .refused hbits hprocessed
  | failed hbits hprocessed h => exact .failed hbits hprocessed (hfailed h)
  | held hbits hprocessed ho => exact .held hbits hprocessed ((howed _ _ rfl hbits.bit).mp ho)
  | leaving commit_tid hbits hprocessed ho =>
    exact .leaving commit_tid hbits hprocessed fun h => ho ((howed _ _ rfl hbits.bit).mpr h)
  | left hbits hprocessed ho =>
    exact .left hbits hprocessed fun h => ho ((howed _ _ rfl hbits.bit).mpr h)

theorem of_absent (h : Phase i owed hasFailed (none : Option (ReadKey κ α)) messages lock) :
    messages = [] ∧ lock = none := by
  cases h
  exact ⟨rfl, rfl⟩

theorem of_unprocessed (h : Phase i owed hasFailed (some r) messages lock)
    (hr : r.processed = false) : messages = [] ∧ lock = none ∧ r.NoLock := by
  cases h with
  | fresh hbits | failed hbits => exact ⟨rfl, rfl, hbits⟩
  | _ => simp_all

theorem of_bit (h : Phase i owed hasFailed (some r) messages lock)
    (hbit : r.get_lock_bit kind = true) (howed : owed kind) :
    messages = [] ∧ lock = some (r.key, kind) ∧ r.lock_request = kind ∧ r.processed = true ∧
      r.HasLock := by
  cases h with
  | held hbits hprocessed _ =>
    obtain rfl := hbits.lock_request_eq hbit
    exact ⟨rfl, rfl, rfl, hprocessed, hbits⟩
  | leaving _ hbits _ hnot
  | left hbits _ hnot => exact absurd (hbits.lock_request_eq hbit ▸ howed) hnot
  | fresh hbits | requested hbits | answered _ hbits
  | refused hbits | failed hbits => exact absurd hbit hbits.not_bit

section

variable (h : Phase i owed hasFailed key messages lock)

include h

theorem messages_eq {m : TwoPLMessage κ α} (hm : m ∈ messages) : messages = [m] := by
  cases h with
  | requested | answered | refused | leaving => rw [mem_singleton.mp hm]
  | _ => cases hm

theorem of_lock_request {k : κ} {j : Nat} (hm : messages = [.LOCK_REQUEST kind k j]) :
    ∃ r, key = some r ∧ r.NoLock ∧ r.processed = true ∧ r.lock_request = kind ∧ r.key = k ∧
      lock = none := by
  cases h with
  | requested hbits hprocessed =>
    cases hm
    exact ⟨_, rfl, hbits, hprocessed, rfl, rfl, rfl⟩
  | leaving commit_tid =>
    have hpurpose := congrArg purpose (List.cons.inj hm).1
    rw [releaseMessage_purpose] at hpurpose
    cases hpurpose
  | _ => cases hm

theorem of_lock_response {j : Nat} {result : Option (α × Word)}
    (hm : messages = [.LOCK_RESPONSE kind j result]) :
    ∃ r, key = some r ∧ r.NoLock ∧ r.processed = true ∧ r.lock_request = kind ∧
      lock = result.map fun _ => (r.key, kind) := by
  cases h with
  | answered result hbits hprocessed | refused hbits hprocessed =>
    cases hm
    exact ⟨_, rfl, hbits, hprocessed, rfl, rfl⟩
  | leaving commit_tid =>
    have hpurpose := congrArg purpose (List.cons.inj hm).1
    rw [releaseMessage_purpose] at hpurpose
    cases hpurpose
  | _ => cases hm

theorem of_release {m : TwoPLMessage κ α} (hm : messages = [m]) (hpurpose : m.purpose = .release) :
    ∃ r commit_tid, key = some r ∧ r.HasLock ∧ r.processed = true ∧ ¬ owed r.lock_request ∧
      m = releaseMessage commit_tid r.lock_request r.key i ∧
      lock = some (r.key, r.lock_request) := by
  cases h with
  | leaving commit_tid hbits hprocessed howed =>
    exact ⟨_, commit_tid, rfl, hbits, hprocessed, howed, (List.cons.inj hm).1.symm, rfl⟩
  | _ => cases hm <;> cases hpurpose

end

theorem bit_of_processed (h : Phase i owed hasFailed (some r) [] lock) (hfailed : ¬ hasFailed)
    (hr : r.processed = true) : r.HasLock := by
  cases h with
  | fresh _ h => simp_all
  | failed _ _ h => exact absurd h hfailed
  | held hbits | left hbits => exact hbits

end Phase

namespace Transaction

variable {x x' : Transaction κ α} {held : Nat → Option (κ × LockKind)} {i j n : Nat}
  {m : TwoPLMessage κ α} {r : ReadKey κ α} {stage : Stage κ α}

def messagesOf (x : Transaction κ α) (i : Nat) : List (TwoPLMessage κ α) :=
  x.messages.filter fun m => decide (m.offset = some i)

def Ahead (x : Transaction κ α) : Prop :=
  match x.stage with
  | .executing => True
  | .requests todo => todo.Nodup ∧ ∀ i ∈ todo, ∃ r, x.readSet[i]? = some r ∧ r.processed = false
  | .preparing => ∀ r ∈ x.readSet, r.HasLock
  | .writing _ todo => (∀ r ∈ x.readSet, r.HasLock) ∧ (∀ w ∈ todo, w.1 ∈ x.writeSet.map Prod.fst) ∧
      ∀ k v commit_tid, .WRITE_REQUEST k v commit_tid ∈ x.messages → k ∈ x.writeSet.map Prod.fst
  | .releasing _ todo => todo.Nodup ∧
      ∀ l ∈ todo, ∃ r, x.readSet[l.1]? = some r ∧ r.get_lock_bit l.2 = true
  | .aborting todo => todo.Nodup ∧
      ∀ l ∈ todo, ∃ r, x.readSet[l.1]? = some r ∧ r.get_lock_bit l.2 = true

structure Tracks (x : Transaction κ α) (held : Nat → Option (κ × LockKind)) : Prop where
  sent : ∀ m ∈ x.messages, x.stage.purpose = some m.purpose
  pending : x.messages.countP (·.isAwaited) = x.pendingResponses
  phase : ∀ i, Phase i (x.stage.Owes i) (x.abort_lock = true) x.readSet[i]? (x.messagesOf i)
    (held i)
  writes : ∀ k ∈ x.writeSet.map Prod.fst, ∃ r ∈ x.readSet, r.key = k ∧ r.lock_request = .write
  ahead : x.Ahead

theorem messagesOf_eq_nil (h : x.messages = []) (i : Nat) : x.messagesOf i = [] := by
  rw [messagesOf, h, filter_nil]

theorem messagesOf_sends_self (hm : m.offset = some i) :
    (x.sends m).messagesOf i = x.messagesOf i ++ [m] := by
  simp [messagesOf, sends, filter_append, hm]

theorem messagesOf_sends_of_ne (hm : m.offset ≠ some i) :
    (x.sends m).messagesOf i = x.messagesOf i := by
  simp [messagesOf, sends, filter_append, hm]

theorem messagesOf_takes_of_ne (hn : x.messages[n]? = some m) (hm : m.offset ≠ some i) :
    (x.takes n).messagesOf i = x.messagesOf i :=
  Mailbox.filter_take_of_neg hn (by simp [hm])

theorem messagesOf_takes_self {m' : TwoPLMessage κ α} (hn : x.messages[n]? = some m)
    (hm : m.offset = some i) (hmessages : x.messagesOf i = [m']) :
    m = m' ∧ (x.takes n).messagesOf i = [] :=
  Mailbox.filter_take_of_eq hn (by simp [hm]) hmessages

theorem mem_messagesOf (hn : x.messages[n]? = some m) (hm : m.offset = some i) :
    m ∈ x.messagesOf i :=
  mem_filter.mpr ⟨mem_of_getElem? hn, by simp [hm]⟩

namespace Tracks

theorem init : Tracks (Transaction.init : Transaction κ α) fun _ => none :=
  ⟨by simp [Transaction.init], rfl, fun _ => .absent, by simp [Transaction.init], trivial⟩

theorem messages_eq_nil (h : x.Tracks held) (hpending : x.pendingResponses = 0)
    (hstage : x.stage.purpose ≠ some .release) : x.messages = [] := by
  refine eq_nil_iff_forall_not_mem.mpr fun m hm => ?_
  have hcount : x.messages.countP (·.isAwaited) = 0 := h.pending.trans hpending
  have hnot := countP_eq_zero.mp hcount m hm
  simp only [isAwaited, bne_iff_ne, ne_eq, Decidable.not_not] at hnot
  exact hstage (hnot ▸ h.sent m hm)

theorem messages_eq_nil_of_executing (h : x.Tracks held) (hstage : x.stage = .executing) :
    x.messages = [] := by
  refine eq_nil_iff_forall_not_mem.mpr fun m hm => ?_
  have hsent := h.sent m hm
  rw [hstage] at hsent
  cases hsent

theorem pending_eq_zero (h : x.Tracks held) (hmessages : x.messages = []) :
    x.pendingResponses = 0 := by
  rw [← h.pending, hmessages, countP_nil]

theorem goto (h : x.Tracks held) (hmessages : x.messages = [])
    (howes : ∀ i kind, x.stage.Owes i kind)
    (howes' : ∀ (i : Nat) (r : ReadKey κ α) (kind : LockKind), x.readSet[i]? = some r →
      r.get_lock_bit kind = true → stage.Owes i kind)
    (hahead : (x.goto stage).Ahead) : (x.goto stage).Tracks held where
  sent := by
    intro m hm
    rw [Transaction.goto, hmessages] at hm
    cases hm
  pending := h.pending
  phase i := (h.phase i).mono
    (fun r kind hr hbit => iff_of_true (howes i kind) (howes' i r kind hr hbit)) id
  writes := h.writes
  ahead := hahead

theorem mem_lockBits {kind : LockKind} :
    (i, kind) ∈ x.lockBits ↔ ∃ r, x.readSet[i]? = some r ∧ r.get_lock_bit kind = true := by
  simp only [lockBits, mem_flatMap, mem_range, mem_filter, Option.any_eq_true]
  constructor
  · rintro ⟨j, hj, hmem, r, hr, hbit⟩
    have hij : i = j := by
      simp only [mem_cons, Prod.mk.injEq, not_mem_nil, or_false] at hmem
      rcases hmem with ⟨h, -⟩ | ⟨h, -⟩ <;> exact h
    exact ⟨r, hij ▸ hr, hbit⟩
  · rintro ⟨r, hr, hbit⟩
    refine ⟨i, (List.getElem?_eq_some_iff.mp hr).1, ?_, r, hr, hbit⟩
    cases kind <;> simp

theorem nodup_lockBits : x.lockBits.Nodup := by
  rw [lockBits, nodup_flatMap]
  refine ⟨fun i _ => List.Nodup.filter _ (by simp), ?_⟩
  refine nodup_range.imp fun {i j} hij => ?_
  rw [Function.onFun_apply, disjoint_left]
  intro l hi hj
  have hfst : ∀ k, l ∈ [(k, LockKind.read), (k, .write)] → l.1 = k := by
    intro k hk
    rcases mem_cons.mp hk with rfl | hk
    · rfl
    · rw [mem_singleton.mp hk]
  exact hij ((hfst i (mem_filter.mp hi).1).symm.trans (hfst j (mem_filter.mp hj).1))

theorem phase_at {lock : Option (κ × LockKind)} (h : x.Tracks held)
    (hfailed : x.abort_lock = true → x'.abort_lock = true)
    (howes : ∀ j ≠ i, ∀ kind, x.stage.Owes j kind ↔ x'.stage.Owes j kind)
    (hkeys : ∀ j ≠ i, x'.readSet[j]? = x.readSet[j]?)
    (hmessages : ∀ j ≠ i, x'.messagesOf j = x.messagesOf j)
    (hi : Phase i (x'.stage.Owes i) (x'.abort_lock = true) x'.readSet[i]? (x'.messagesOf i) lock)
    (j : Nat) :
    Phase j (x'.stage.Owes j) (x'.abort_lock = true) x'.readSet[j]? (x'.messagesOf j)
      (Function.update held i lock j) := by
  by_cases hj : j = i
  · subst hj
    rw [Function.update_self]
    exact hi
  · rw [Function.update_of_ne hj, hkeys j hj, hmessages j hj]
    exact (h.phase j).mono (fun _ kind _ _ => howes j hj kind) hfailed

section

variable (h : x.Tracks held) (hstage : x.stage = .executing)

include h hstage

theorem search (k : κ) (kind : LockKind) : (x.search k kind).Tracks held where
  sent := h.sent
  pending := h.pending
  phase := by
    intro i
    have hphase := h.phase i
    rcases Nat.lt_trichotomy i x.readSet.length with hi | rfl | hi
    · simp only [Transaction.search, List.getElem?_append_left hi]
      exact hphase
    · have hmessages := messagesOf_eq_nil (h.messages_eq_nil_of_executing hstage) x.readSet.length
      rw [List.getElem?_eq_none le_rfl, hmessages] at hphase
      rw [hphase.of_absent.2]
      simp only [Transaction.search, List.getElem?_concat_length]
      have hmessages' : (x.search k kind).messagesOf x.readSet.length = [] := hmessages
      change Phase _ _ _ _ ((x.search k kind).messagesOf _) _
      rw [hmessages']
      exact .fresh (fun kind => by cases kind <;> rfl) rfl
    · have hnone : x.readSet[i]? = none := List.getElem?_eq_none (le_of_lt hi)
      have hnone' : (x.search k kind).readSet[i]? = none :=
        List.getElem?_eq_none (by simp [Transaction.search]; omega)
      rw [hnone] at hphase
      rw [hnone']
      exact hphase
  writes := by
    intro k' hk'
    obtain ⟨r, hr, hkey⟩ := h.writes k' hk'
    exact ⟨r, mem_append_left _ hr, hkey⟩
  ahead := by
    change Ahead { x with readSet := _ }
    rw [Ahead, hstage]
    trivial

theorem setWriteSet {writeSet : List (κ × α)}
    (hwrites : ∀ k ∈ writeSet.map Prod.fst, k ∈ x.writeSet.map Prod.fst ∨
      ∃ r ∈ x.readSet, r.key = k ∧ r.lock_request = .write) :
    Tracks { x with writeSet := writeSet } held where
  sent := h.sent
  pending := h.pending
  phase := h.phase
  writes k hk := (hwrites k hk).elim (h.writes k) id
  ahead := by
    rw [Ahead, hstage]
    trivial

theorem process_requests : (x.goto (.requests x.unprocessed)).Tracks held := by
  refine h.goto (h.messages_eq_nil_of_executing hstage) ?_ ?_ ?_
  · intro i kind
    rw [hstage]
    trivial
  · exact fun _ _ _ _ _ => trivial
  · refine ⟨?_, ?_⟩
    · have hnodup : (List.range x.readSet.length).reverse.Nodup :=
        nodup_reverse.mpr nodup_range
      exact hnodup.sublist (takeWhile_sublist _)
    · intro i hi
      have hany := mem_takeWhile_imp hi
      obtain ⟨r, hr, hprocessed⟩ := Option.any_eq_true _ _ |>.mp hany
      exact ⟨r, hr, by simpa using hprocessed⟩

theorem abort : (x.goto (.aborting x.lockBits)).Tracks held := by
  refine h.goto (h.messages_eq_nil_of_executing hstage) ?_ ?_ ?_
  · intro i kind
    rw [hstage]
    trivial
  · exact fun i r kind hr hbit => mem_lockBits.mpr ⟨r, hr, hbit⟩
  · exact ⟨nodup_lockBits, fun l hl => mem_lockBits.mp hl⟩

theorem hasLock (hfailed : ¬ x.abort_lock = true) (hready : x.isReady = true) :
    ∀ r ∈ x.readSet, r.HasLock := by
  intro r hr
  obtain ⟨i, hi⟩ := mem_iff_getElem?.mp hr
  have hphase := h.phase i
  rw [hi, messagesOf_eq_nil (h.messages_eq_nil_of_executing hstage)] at hphase
  exact hphase.bit_of_processed hfailed (all_eq_true.mp hready r hr)

end

theorem foldl_awaits (l : List Nat) (y : Transaction κ α) :
    l.foldl (fun y _ => y.awaits .PREPARE_REQUEST) y =
      { y with
        messages := y.messages ++ List.replicate l.length .PREPARE_REQUEST
        pendingResponses := y.pendingResponses + l.length } := by
  induction l generalizing y with
  | nil => simp
  | cons a l ih =>
    rw [foldl_cons, ih]
    simp [awaits, sends, replicate_succ]
    omega

theorem prepare (h : x.Tracks held) (hstage : x.stage = .executing)
    (hfailed : ¬ x.abort_lock = true) (hready : x.isReady = true) (l : List Nat) :
    (l.foldl (fun y _ => y.awaits .PREPARE_REQUEST) (x.goto .preparing)).Tracks held := by
  have hmessages := h.messages_eq_nil_of_executing hstage
  have hbits := h.hasLock hstage hfailed hready
  rw [foldl_awaits]
  refine ⟨?_, ?_, ?_, h.writes, hbits⟩
  · intro m hm
    simp only [Transaction.goto, hmessages, nil_append, mem_replicate] at hm
    rw [hm.2]
    rfl
  · have hpending := h.pending_eq_zero hmessages
    simp [Transaction.goto, hmessages, hpending, countP_replicate, isAwaited,
      purpose]
  · intro i
    have hphase := h.phase i
    rw [messagesOf_eq_nil hmessages] at hphase
    have hnone : (x.messages ++ List.replicate l.length PREPARE_REQUEST).filter
        (fun m : TwoPLMessage κ α => decide (m.offset = some i)) = [] := by
      simp [hmessages, offset]
    simp only [messagesOf, Transaction.goto, hnone]
    refine hphase.mono (fun _ kind _ _ => ?_) id
    rw [hstage]
    exact Iff.rfl

end Tracks

end Transaction

end Tigon.TwoPL
