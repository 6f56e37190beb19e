import Tigon.TwoPL.System.Tracking

namespace Tigon.TwoPL

open Function List Option Stage ReadKey

open Tigon.Library Tigon.Protocol.LockWord

variable {κ α : Type}

def Stage.releases : Stage κ α → Option (List (Nat × LockKind))
  | .releasing _ todo => some todo
  | .aborting todo => some todo
  | _ => none

namespace Stage

variable {stage : Stage κ α} {todo : List (Nat × LockKind)} {i : Nat} {kind : LockKind}
  {x x' : Transaction κ α}

theorem purpose_releases (h : stage.releases = some todo) : stage.purpose = some .release := by
  cases stage <;> first | rfl | cases h

theorem owes_releases (h : stage.releases = some todo) : stage.Owes i kind ↔ (i, kind) ∈ todo := by
  cases stage <;> cases h <;> exact Iff.rfl

theorem ahead_releases (h : x.stage.releases = some todo) :
    x.Ahead ↔ todo.Nodup ∧
      ∀ l ∈ todo, ∃ r, x.readSet[l.1]? = some r ∧ r.get_lock_bit l.2 = true := by
  rw [Transaction.Ahead]
  cases hstage : x.stage <;> rw [hstage] at h <;> cases h <;> exact Iff.rfl

theorem exists_requests (h : stage.purpose = some .lock) : ∃ todo, stage = .requests todo := by
  cases stage <;> first | exact ⟨_, rfl⟩ | cases h

theorem ahead_congr (hstage : x'.stage = x.stage) (hreadSet : x'.readSet = x.readSet)
    (hwriteSet : x'.writeSet = x.writeSet)
    (hmessages : ∀ k v tid, .WRITE_REQUEST k v tid ∈ x'.messages →
      .WRITE_REQUEST k v tid ∈ x.messages) (h : x.Ahead) : x'.Ahead := by
  rw [Transaction.Ahead] at h ⊢
  rw [hstage, hreadSet, hwriteSet]
  cases hx : x.stage with
  | writing commit_tid todo =>
    rw [hx] at h
    exact ⟨h.1, h.2.1, fun k v tid hm => h.2.2 k v tid (hmessages k v tid hm)⟩
  | _ =>
    rw [hx] at h
    exact h

end Stage

namespace Transaction

variable {x x' : Transaction κ α} {held : Nat → Option (κ × LockKind)} {i n : Nat}
  {m : TwoPLMessage κ α} {r r' : ReadKey κ α} {todo : List Nat}
  {lock : Option (κ × LockKind)}

theorem exists_mem_set (hr : x.readSet[i]? = some r) (hkey : r'.key = r.key)
    (hrequest : r'.lock_request = r.lock_request) {q : ReadKey κ α} (hq : q ∈ x.readSet) :
    ∃ q' ∈ x.readSet.set i r', q'.key = q.key ∧ q'.lock_request = q.lock_request := by
  obtain ⟨j, hj⟩ := mem_iff_getElem?.mp hq
  by_cases hij : i = j
  · subst hij
    obtain rfl : r = q := some.inj (hr.symm.trans hj)
    exact ⟨r', mem_set (List.getElem?_eq_some_iff.mp hr).1 r', hkey, hrequest⟩
  · refine ⟨q, mem_of_getElem? (i := j) ?_, rfl, rfl⟩
    rw [List.getElem?_set_ne hij]
    exact hj

namespace Tracks

theorem request (h : x.Tracks held) (r' : ReadKey κ α)
    (hstage : x.stage = .requests (i :: todo)) (hr : x.readSet[i]? = some r)
    (hkey : r'.key = r.key) (hrequest : r'.lock_request = r.lock_request)
    (hset : x'.readSet = x.readSet.set i r')
    (hstage' : x'.stage = .requests todo) (hwriteSet : x'.writeSet = x.writeSet)
    (hfailed : x'.abort_lock = x.abort_lock)
    (hmessages : ∀ j ≠ i, x'.messagesOf j = x.messagesOf j)
    (hsent : ∀ m ∈ x'.messages, m ∈ x.messages ∨ m.purpose = .lock)
    (hpending : x'.messages.countP (·.isAwaited) = x'.pendingResponses)
    (hphase : Phase i (fun _ => True) (x'.abort_lock = true) (some r') (x'.messagesOf i) lock) :
    x'.Tracks (Function.update held i lock) := by
  have hlength := (List.getElem?_eq_some_iff.mp hr).1
  have hahead := h.ahead
  rw [Ahead, hstage] at hahead
  obtain ⟨hnodup, hfresh⟩ := hahead
  rw [nodup_cons] at hnodup
  refine ⟨?_, hpending, ?_, ?_, ?_⟩
  · intro m hm
    rw [hstage']
    rcases hsent m hm with hm | hm
    · have hpurpose := h.sent m hm
      rw [hstage] at hpurpose
      exact hpurpose
    · rw [hm]
      rfl
  · refine h.phase_at (fun hf => hfailed.trans hf) ?_ ?_ hmessages ?_
    · intro j _ kind
      rw [hstage, hstage']
      exact Iff.rfl
    · intro j hj
      rw [hset, List.getElem?_set_ne (Ne.symm hj)]
    · rw [hset, List.getElem?_set_self hlength]
      refine hphase.mono (fun _ kind _ _ => ?_) id
      rw [hstage']
      exact Iff.rfl
  · intro k hk
    rw [hwriteSet] at hk
    obtain ⟨q, hq, hqkey, hqrequest⟩ := h.writes k hk
    obtain ⟨q', hq', hqkey', hqrequest'⟩ := exists_mem_set hr hkey hrequest hq
    rw [hset]
    exact ⟨q', hq', hqkey'.trans hqkey, hqrequest'.trans hqrequest⟩
  · rw [Ahead, hstage']
    refine ⟨hnodup.2, fun j hj => ?_⟩
    have hij : i ≠ j := fun hij => hnodup.1 (hij ▸ hj)
    rw [hset, List.getElem?_set_ne hij]
    exact hfresh j (mem_cons_of_mem i hj)

section

variable (h : x.Tracks held) (hstage : x.stage = .requests (i :: todo))

include h hstage

theorem unprocessed_of_todo (hr : x.readSet[i]? = some r) :
    x.messagesOf i = [] ∧ held i = none ∧ r.NoLock := by
  have hahead := h.ahead
  rw [Ahead, hstage] at hahead
  obtain ⟨q, hq, hprocessed⟩ := hahead.2 i mem_cons_self
  obtain rfl : r = q := some.inj (hr.symm.trans hq)
  have hphase := h.phase i
  rw [hr] at hphase
  exact hphase.of_unprocessed hprocessed

theorem request_local (hr : x.readSet[i]? = some r) (value : α) (tid : Word) :
    ((x.setKey i (r.receive r.lock_request value tid).set_processed).goto (.requests todo)).Tracks
      (Function.update held i (some (r.key, r.lock_request))) := by
  obtain ⟨hmessages, -, hbits⟩ := h.unprocessed_of_todo hstage hr
  refine h.request (r.receive r.lock_request value tid).set_processed hstage hr (by simp)
    (by simp) rfl rfl rfl rfl (fun _ _ => rfl) (fun _ hm => .inl hm) h.pending ?_
  change Phase i _ (x.abort_lock = true) _ (x.messagesOf i) _
  rw [hmessages]
  have hphase : Phase i (fun _ => True) (x.abort_lock = true) _ [] _ :=
    .held (hbits.receive value tid).set_processed rfl trivial
  rw [set_processed_key, set_processed_lock_request, receive_key,
    receive_lock_request] at hphase
  exact hphase

theorem request_remote (hr : x.readSet[i]? = some r) :
    (((x.setKey i r.set_processed).awaits (.LOCK_REQUEST r.lock_request r.key i)).goto
      (.requests todo)).Tracks held := by
  obtain ⟨hmessages, hheld, hbits⟩ := h.unprocessed_of_todo hstage hr
  have hself : Function.update held i none = held := by
    rw [← hheld, update_eq_self]
  rw [← hself]
  refine h.request r.set_processed hstage hr rfl rfl rfl rfl rfl rfl ?_ ?_ ?_ ?_
  · intro j hj
    exact messagesOf_sends_of_ne (x := x) (by simpa [TwoPLMessage.offset] using Ne.symm hj)
  · intro m hm
    refine (mem_append.mp hm).imp_right fun hm => ?_
    rw [mem_singleton.mp hm]
    rfl
  · simp only [Transaction.goto, awaits, sends, setKey, countP_append, h.pending]
    rfl
  · have hone : x.messagesOf i ++ [.LOCK_REQUEST r.lock_request r.key i] =
        [.LOCK_REQUEST r.lock_request r.key i] := by
      rw [hmessages, nil_append]
    change Phase _ _ _ _ ((x.sends _).messagesOf i) _
    rw [messagesOf_sends_self rfl, hone]
    exact Phase.requested (r := r.set_processed) hbits rfl

theorem request_fails : Tracks { x.goto (.requests []) with abort_lock := true } held where
  sent m hm := by
    have hpurpose := h.sent m hm
    rw [hstage] at hpurpose
    exact hpurpose
  pending := h.pending
  phase j := by
    refine (h.phase j).mono (fun _ kind _ _ => ?_) fun _ => rfl
    rw [hstage]
    exact Iff.rfl
  writes := h.writes
  ahead := ⟨nodup_nil, by simp⟩

end

theorem requests_done (h : x.Tracks held) (hstage : x.stage = .requests [])
    (hpending : x.pendingResponses = 0) : (x.goto .executing).Tracks held := by
  refine h.goto (h.messages_eq_nil hpending (by rw [hstage]; simp [purpose])) ?_
    (fun _ _ _ _ _ => trivial) trivial
  intro j kind
  rw [hstage]
  trivial

theorem prepare_done (h : x.Tracks held) (hstage : x.stage = .preparing)
    (hpending : x.pendingResponses = 0) (commit_tid : Word) :
    (x.goto (.writing commit_tid x.writeSet)).Tracks held := by
  have hmessages := h.messages_eq_nil hpending (by rw [hstage]; simp [purpose])
  have hahead := h.ahead
  rw [Ahead, hstage] at hahead
  refine h.goto hmessages ?_ (fun _ _ _ _ _ => trivial) ⟨hahead, ?_, ?_⟩
  · intro j kind
    rw [hstage]
    trivial
  · exact fun w hw => mem_map_of_mem hw
  · intro k v tid hm
    have hm : _ ∈ x.messages := hm
    rw [hmessages] at hm
    cases hm

variable {commit_tid : Word}

theorem writes_done (h : x.Tracks held) (hstage : x.stage = .writing commit_tid [])
    (hpending : x.pendingResponses = 0) :
    (x.goto (.releasing commit_tid x.lockBits)).Tracks held := by
  refine h.goto (h.messages_eq_nil hpending (by rw [hstage]; simp [purpose])) ?_ ?_ ?_
  · intro j kind
    rw [hstage]
    trivial
  · exact fun i r kind hr hbit => mem_lockBits.mpr ⟨r, hr, hbit⟩
  · exact ⟨nodup_lockBits, fun l hl => mem_lockBits.mp hl⟩

theorem exists_held {todo : List (κ × α)} {k : κ} (h : x.Tracks held)
    (hstage : x.stage = .writing commit_tid todo) (hk : k ∈ x.writeSet.map Prod.fst) :
    ∃ i, held i = some (k, .write) := by
  obtain ⟨r, hr, rfl, hrequest⟩ := h.writes k hk
  have hahead := h.ahead
  rw [Ahead, hstage] at hahead
  obtain ⟨i, hi⟩ := mem_iff_getElem?.mp hr
  have hphase := h.phase i
  rw [hi] at hphase
  have hbit := (hahead.1 r hr).bit
  rw [hrequest] at hbit
  have howed : x.stage.Owes i .write := by
    rw [hstage]
    trivial
  exact ⟨i, (hphase.of_bit hbit howed).2.1⟩

theorem write_local {w : κ × α} {todo : List (κ × α)} (h : x.Tracks held)
    (hstage : x.stage = .writing commit_tid (w :: todo)) :
    (x.goto (.writing commit_tid todo)).Tracks held where
  sent m hm := by
    have hpurpose := h.sent m hm
    rw [hstage] at hpurpose
    exact hpurpose
  pending := h.pending
  phase j := by
    refine (h.phase j).mono (fun _ kind _ _ => ?_) id
    rw [hstage]
    exact Iff.rfl
  writes := h.writes
  ahead := by
    have hahead := h.ahead
    rw [Ahead, hstage] at hahead
    exact ⟨hahead.1, fun w' hw' => hahead.2.1 w' (mem_cons_of_mem w hw'), hahead.2.2⟩

theorem write_remote {w : κ × α} {todo : List (κ × α)} (h : x.Tracks held)
    (hstage : x.stage = .writing commit_tid (w :: todo)) :
    ((x.awaits (.WRITE_REQUEST w.1 w.2 commit_tid)).goto (.writing commit_tid todo)).Tracks
      held := by
  have hahead := h.ahead
  rw [Ahead, hstage] at hahead
  obtain ⟨hbits, htodo, hrequests⟩ := hahead
  refine ⟨?_, ?_, ?_, h.writes, ⟨hbits, ?_, ?_⟩⟩
  · intro m hm
    rcases mem_append.mp hm with hm | hm
    · have hpurpose := h.sent m hm
      rw [hstage] at hpurpose
      exact hpurpose
    · rw [mem_singleton.mp hm]
      rfl
  · simp only [Transaction.goto, awaits, sends, countP_append, h.pending]
    rfl
  · intro j
    change Phase j _ _ _ ((x.sends _).messagesOf j) _
    rw [messagesOf_sends_of_ne (by simp [TwoPLMessage.offset])]
    refine (h.phase j).mono (fun _ kind _ _ => ?_) id
    rw [hstage]
    exact Iff.rfl
  · exact fun w' hw' => htodo w' (mem_cons_of_mem w hw')
  · intro k v tid hm
    rcases mem_append.mp hm with hm | hm
    · exact hrequests k v tid hm
    · obtain ⟨rfl, -, -⟩ := TwoPLMessage.WRITE_REQUEST.inj (mem_singleton.mp hm)
      exact htodo w mem_cons_self

variable {stage : Stage κ α} {kind : LockKind} {todo : List (Nat × LockKind)}

section

variable (h : x.Tracks held) (hstage : x.stage.releases = some ((i, kind) :: todo))
  (hstage' : stage.releases = some todo) (hr : x.readSet[i]? = some r)

include h hstage hstage' hr

theorem release_turn :
    x.messagesOf i = [] ∧ held i = some (r.key, kind) ∧ r.lock_request = kind ∧
      r.processed = true ∧ r.HasLock ∧ ¬ stage.Owes i kind ∧
      (∀ j ≠ i, ∀ kind', x.stage.Owes j kind' ↔ stage.Owes j kind') ∧
      ∀ x' : Transaction κ α, x'.stage = stage → x'.readSet = x.readSet → x'.Ahead := by
  obtain ⟨hnodup, hbits⟩ := (ahead_releases hstage).mp h.ahead
  rw [nodup_cons] at hnodup
  obtain ⟨q, hq, hbit⟩ := hbits (i, kind) mem_cons_self
  obtain rfl : r = q := some.inj (hr.symm.trans hq)
  have hphase := h.phase i
  rw [hr] at hphase
  have howes : x.stage.Owes i kind := (owes_releases hstage).mpr mem_cons_self
  obtain ⟨hmessages, hheld, hrequest, hprocessed, hlock⟩ := hphase.of_bit hbit howes
  refine ⟨hmessages, hheld, hrequest, hprocessed, hlock, ?_, ?_, ?_⟩
  · rw [owes_releases hstage']
    exact hnodup.1
  · intro j hj kind'
    rw [owes_releases hstage, owes_releases hstage', mem_cons]
    refine or_iff_right fun heq => hj ?_
    exact congrArg Prod.fst heq
  · rintro x' rfl hset
    rw [ahead_releases hstage', hset]
    exact ⟨hnodup.2, fun l hl => hbits l (mem_cons_of_mem _ hl)⟩

theorem release_local : (x.goto stage).Tracks (Function.update held i none) := by
  obtain ⟨hmessages, -, hrequest, hprocessed, hlock, hnot, howes, hahead⟩ :=
    h.release_turn hstage hstage' hr
  refine ⟨?_, h.pending, ?_, h.writes, hahead _ rfl rfl⟩
  · intro m hm
    change stage.purpose = _
    rw [purpose_releases hstage', ← h.sent m hm, purpose_releases hstage]
  · refine h.phase_at id howes (fun _ _ => rfl) (fun _ _ => rfl) ?_
    change Phase i _ _ x.readSet[i]? (x.messagesOf i) _
    rw [hr, hmessages]
    exact .left hlock hprocessed (hrequest ▸ hnot)

theorem release_remote (commit_tid : Option Word) :
    ((x.sends (releaseMessage commit_tid kind r.key i)).goto stage).Tracks held := by
  obtain ⟨hmessages, hheld, hrequest, hprocessed, hlock, hnot, howes, hahead⟩ :=
    h.release_turn hstage hstage' hr
  have hself : Function.update held i (some (r.key, kind)) = held := by
    rw [← hheld, update_eq_self]
  rw [← hself]
  refine ⟨?_, ?_, ?_, h.writes, hahead _ rfl rfl⟩
  · intro m hm
    change stage.purpose = _
    rw [purpose_releases hstage']
    rcases mem_append.mp hm with hm | hm
    · rw [← h.sent m hm, purpose_releases hstage]
    · rw [mem_singleton.mp hm, releaseMessage_purpose]
  · have hnot : (releaseMessage commit_tid kind r.key i : TwoPLMessage κ α).isAwaited = false := by
      simp [TwoPLMessage.isAwaited]
    simp only [Transaction.goto, sends, countP_append, h.pending, countP_singleton, hnot]
    rfl
  · refine h.phase_at id howes (fun _ _ => rfl) (fun j hj => ?_) ?_
    · exact messagesOf_sends_of_ne (x := x) (by simpa using Ne.symm hj)
    · change Phase i _ _ x.readSet[i]? ((x.sends _).messagesOf i) _
      rw [messagesOf_sends_self (releaseMessage_offset ..), hmessages, hr, ← hrequest]
      exact .leaving commit_tid hlock hprocessed (hrequest ▸ hnot)

end

theorem deliver_at {l : List (TwoPLMessage κ α)} (h : x.Tracks held)
    (hn : x.messages[n]? = some m) (hm : m.offset = some i)
    (hl : ∀ m' ∈ l, m'.purpose = m.purpose ∧ m'.offset = some i)
    (hmessages : x'.messages = x.messages.eraseIdx n ++ l) (hstage : x'.stage = x.stage)
    (hfailed : x.abort_lock = true → x'.abort_lock = true)
    (hpending : x'.pendingResponses + (if m.isAwaited then 1 else 0) =
      x.pendingResponses + l.countP (·.isAwaited))
    (hkeys : ∀ j ≠ i, x'.readSet[j]? = x.readSet[j]?)
    (hwrites : ∀ k ∈ x'.writeSet.map Prod.fst, ∃ r ∈ x'.readSet, r.key = k ∧
      r.lock_request = .write)
    (hahead : x'.Ahead)
    (hphase : Phase i (x.stage.Owes i) (x'.abort_lock = true) x'.readSet[i]? l lock) :
    x'.Tracks (Function.update held i lock) := by
  have hone : x.messagesOf i = [m] := (h.phase i).messages_eq (mem_messagesOf hn hm)
  have hrest := (messagesOf_takes_self hn hm hone).2
  refine ⟨?_, ?_, ?_, hwrites, hahead⟩
  · intro m' hm'
    rw [hstage]
    rw [hmessages] at hm'
    rcases mem_append.mp hm' with hm' | hm'
    · exact h.sent m' (mem_of_mem_eraseIdx hm')
    · rw [(hl m' hm').1]
      exact h.sent m (mem_of_getElem? hn)
  · have hcount := Mailbox.countP_take (p := fun m => m.isAwaited) hn
    rw [h.pending] at hcount
    rw [hmessages, countP_append]
    omega
  · refine h.phase_at hfailed (fun j _ kind => by rw [hstage]) hkeys ?_ ?_
    · intro j hj
      have hnot : m.offset ≠ some j := by simpa [hm] using Ne.symm hj
      have hnone : l.filter (fun m : TwoPLMessage κ α => decide (m.offset = some j)) = [] := by
        refine filter_eq_nil_iff.mpr fun m' hm' => ?_
        simpa [(hl m' hm').2] using Ne.symm hj
      rw [messagesOf, hmessages, filter_append, hnone, append_nil]
      exact messagesOf_takes_of_ne hn hnot
    · have hall : l.filter (fun m : TwoPLMessage κ α => decide (m.offset = some i)) = l :=
        filter_eq_self.mpr fun m' hm' => by simp [(hl m' hm').2]
      have hof : x'.messagesOf i = l := by
        rw [messagesOf, hmessages, filter_append, hall]
        exact congrArg (· ++ l) hrest
      rw [hstage, hof]
      exact hphase

theorem deliver {l : List (TwoPLMessage κ α)} (h : x.Tracks held)
    (hn : x.messages[n]? = some m) (hm : m.offset = none)
    (hl : ∀ m' ∈ l, m'.purpose = m.purpose ∧ m'.offset = none ∧
      ∀ k v tid, m' ≠ .WRITE_REQUEST k v tid)
    (pendingResponses : Nat)
    (hpending : pendingResponses + (if m.isAwaited then 1 else 0) =
      x.pendingResponses + l.countP (·.isAwaited)) :
    Tracks { x with
      messages := x.messages.eraseIdx n ++ l, pendingResponses := pendingResponses } held := by
  refine ⟨?_, ?_, ?_, h.writes, ?_⟩
  · intro m' hm'
    rcases mem_append.mp hm' with hm' | hm'
    · exact h.sent m' (mem_of_mem_eraseIdx hm')
    · rw [(hl m' hm').1]
      exact h.sent m (mem_of_getElem? hn)
  · have hcount := Mailbox.countP_take (p := fun m => m.isAwaited) hn
    rw [h.pending] at hcount
    rw [countP_append]
    simp only
    omega
  · intro j
    have hnone : l.filter (fun m : TwoPLMessage κ α => decide (m.offset = some j)) = [] := by
      refine filter_eq_nil_iff.mpr fun m' hm' => ?_
      simp [(hl m' hm').2.1]
    have hof := messagesOf_takes_of_ne (i := j) hn (by simp [hm])
    simp only [messagesOf, filter_append, hnone, append_nil]
    rw [messagesOf] at hof
    change Phase j _ _ _ ((x.takes n).messages.filter _) _
    rw [hof]
    exact h.phase j
  · refine ahead_congr (x := x) rfl rfl rfl (fun k v tid hm' => ?_) h.ahead
    rcases mem_append.mp hm' with hm' | hm'
    · exact mem_of_mem_eraseIdx hm'
    · exact absurd rfl ((hl _ hm').2.2 k v tid)

theorem pending_pos (h : x.Tracks held) (hn : x.messages[n]? = some m)
    (hm : m.isAwaited = true) : x.pendingResponses - 1 + 1 = x.pendingResponses := by
  have hcount := Mailbox.countP_take (p := fun m => m.isAwaited) hn
  rw [h.pending, if_pos hm] at hcount
  omega

theorem answer {k : κ} (h : x.Tracks held) (hn : x.messages[n]? = some (.LOCK_REQUEST kind k i)) :
    held i = none ∧
      ((x.takes n).sends (.LOCK_RESPONSE kind i none)).Tracks held ∧
      ∀ value tid, ((x.takes n).sends (.LOCK_RESPONSE kind i (some (value, tid)))).Tracks
        (Function.update held i (some (k, kind))) := by
  have hphase := h.phase i
  have hone := hphase.messages_eq (mem_messagesOf hn rfl)
  obtain ⟨r, hr, hbits, hprocessed, rfl, rfl, hheld⟩ := hphase.of_lock_request hone
  have hdeliver : ∀ result lock, Phase i (x.stage.Owes i) (x.abort_lock = true) (some r)
      [.LOCK_RESPONSE r.lock_request i result] lock →
      ((x.takes n).sends (.LOCK_RESPONSE r.lock_request i result)).Tracks
        (Function.update held i lock) := by
    intro result lock hphase'
    refine h.deliver_at hn rfl ?_ rfl rfl id rfl (fun _ _ => rfl) h.writes ?_ (hr ▸ hphase')
    · intro m hm
      rw [mem_singleton.mp hm]
      exact ⟨rfl, rfl⟩
    · refine ahead_congr (x := x) rfl rfl rfl (fun k v tid hm => ?_) h.ahead
      rcases mem_append.mp hm with hm | hm
      · exact mem_of_mem_eraseIdx hm
      · cases mem_singleton.mp hm
  refine ⟨hheld, ?_, fun value tid => hdeliver _ _ (.answered (value, tid) hbits hprocessed)⟩
  have hself : Function.update held i none = held := by
    rw [← hheld, update_eq_self]
  exact hself ▸ hdeliver none none (.refused hbits hprocessed)

theorem modify_eq_set {f : ReadKey κ α → ReadKey κ α} (hr : x.readSet[i]? = some r) :
    x.readSet.modify i f = x.readSet.set i (f r) := by
  apply ext_getElem?
  intro j
  rw [List.getElem?_modify, List.getElem?_set]
  by_cases hij : i = j
  · subst hij
    rw [hr]
    simp [(List.getElem?_eq_some_iff.mp hr).1]
  · simp [hij]

theorem response {result : Option (α × Word)} (h : x.Tracks held)
    (hn : x.messages[n]? = some (.LOCK_RESPONSE kind i result)) :
    ((x.takes n).lock_response_handler kind i result).Tracks held ∧
      ((x.takes n).lock_response_handler kind i result).stage = x.stage := by
  have hphase := h.phase i
  have hone := hphase.messages_eq (mem_messagesOf hn rfl)
  obtain ⟨r, hr, hbits, hprocessed, rfl, hheld⟩ := hphase.of_lock_response hone
  have hpurpose : x.stage.purpose = some .lock := h.sent _ (mem_of_getElem? hn)
  have hpending := h.pending_pos hn rfl
  have hself : Function.update held i (result.map fun _ => (r.key, r.lock_request)) = held := by
    rw [← hheld, update_eq_self]
  rw [← hself]
  cases result with
  | none =>
    refine ⟨h.deliver_at hn rfl (l := []) (by simp) (append_nil _).symm rfl (fun _ => rfl)
      hpending (fun _ _ => rfl) h.writes ?_ ?_, rfl⟩
    · exact ahead_congr (x := x) rfl rfl rfl
        (fun k v tid hm => mem_of_mem_eraseIdx hm) h.ahead
    · change Phase i _ _ x.readSet[i]? [] none
      rw [hr]
      exact .failed hbits hprocessed rfl
  | some answer =>
    obtain ⟨value, tid⟩ := answer
    have hlength := (List.getElem?_eq_some_iff.mp hr).1
    have hset : ((x.takes n).lock_response_handler r.lock_request i (some (value, tid))).readSet =
        x.readSet.set i (r.receive r.lock_request value tid) := modify_eq_set hr
    refine ⟨h.deliver_at hn rfl (l := []) (by simp) (append_nil _).symm rfl id hpending
      ?_ ?_ ?_ ?_, rfl⟩
    · intro j hj
      rw [hset, List.getElem?_set_ne (Ne.symm hj)]
    · intro k hk
      obtain ⟨q, hq, hkey, hrequest⟩ := h.writes k hk
      obtain ⟨q', hq', hkey', hrequest'⟩ := exists_mem_set hr (receive_key ..)
        (receive_lock_request ..) hq
      rw [hset]
      exact ⟨q', hq', hkey'.trans hkey, hrequest'.trans hrequest⟩
    · have hahead := h.ahead
      obtain ⟨todo, hstage⟩ := exists_requests hpurpose
      rw [Ahead, hstage] at hahead
      have hstage' : ((x.takes n).lock_response_handler r.lock_request i
          (some (value, tid))).stage = .requests todo := hstage
      rw [Ahead, hstage']
      refine ⟨hahead.1, fun j hj => ?_⟩
      obtain ⟨q, hq, hfresh⟩ := hahead.2 j hj
      have hij : i ≠ j := by
        rintro rfl
        obtain rfl : r = q := some.inj (hr.symm.trans hq)
        rw [hprocessed] at hfresh
        cases hfresh
      refine ⟨q, ?_, hfresh⟩
      rw [hset, List.getElem?_set_ne hij]
      exact hq
    · obtain ⟨todo, hstage⟩ := exists_requests hpurpose
      rw [hset, List.getElem?_set_self hlength, hstage]
      have hphase' : Phase i (fun _ => True) (x.abort_lock = true) _ [] _ :=
        .held (hbits.receive value tid) (by simpa using hprocessed) trivial
      rw [receive_key, receive_lock_request] at hphase'
      exact hphase'

theorem released (h : x.Tracks held) (hn : x.messages[n]? = some m)
    (hm : m.purpose = .release) :
    ∃ (i : Nat) (r : ReadKey κ α) (commit_tid : Option Word),
      m = releaseMessage commit_tid r.lock_request r.key i ∧
      held i = some (r.key, r.lock_request) ∧
      (x.takes n).Tracks (Function.update held i none) := by
  obtain ⟨i, hi⟩ : ∃ i, m.offset = some i := by
    cases m <;> first | exact ⟨_, rfl⟩ | cases hm
  have hphase := h.phase i
  have hone := hphase.messages_eq (mem_messagesOf hn hi)
  obtain ⟨r, commit_tid, hr, hbits, hprocessed, howed, heq, hheld⟩ := hphase.of_release hone hm
  refine ⟨i, r, commit_tid, heq, hheld, ?_⟩
  have hnot : m.isAwaited = false := by simp [TwoPLMessage.isAwaited, hm]
  refine h.deliver_at hn hi (l := []) (by simp) (append_nil _).symm rfl id ?_
    (fun _ _ => rfl) h.writes ?_ ?_
  · rw [hnot]
    rfl
  · exact ahead_congr (x := x) rfl rfl rfl
      (fun k v tid hm => mem_of_mem_eraseIdx hm) h.ahead
  · change Phase i _ _ x.readSet[i]? [] none
    rw [hr]
    exact .left hbits hprocessed howed

end Tracks

end Transaction

end Tigon.TwoPL
