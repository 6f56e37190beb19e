import Tigon.TwoPL.System.Turns

namespace Tigon.TwoPL

open Function List Option

open Tigon.Library Tigon.Protocol.LockWord

variable {κ α : Type}

inductive Status
  | active
  | committed
  | aborted
deriving DecidableEq

def Stage.status : Stage κ α → Status
  | .executing => .active
  | .requests _ => .active
  | .preparing => .active
  | .writing .. => .committed
  | .releasing .. => .committed
  | .aborting _ => .aborted

variable {stage : Stage κ α}

theorem Stage.status_releases {todo : List (Nat × LockKind)} (h : stage.releases = some todo) :
    stage.status ≠ .active := by
  cases stage <;> cases h <;> simp [Stage.status]

theorem Stage.status_of_lock (h : stage.purpose = some .lock) : stage.status = .active := by
  cases stage <;> first | rfl | cases h

theorem Stage.status_of_release (h : stage.purpose = some .release) : stage.status ≠ .active := by
  cases stage with
  | releasing | aborting => exact Status.noConfusion
  | _ => cases h

theorem Stage.exists_writing (h : stage.purpose = some .write) :
    ∃ commit_tid todo, stage = .writing commit_tid todo := by
  cases stage <;> first | exact ⟨_, _, rfl⟩ | cases h

theorem lockAndRead_eq (kind : LockKind) (row : Row α) :
    lockAndRead kind row = (row.lock kind).map fun locked => (row.value, locked) := by
  cases kind <;> rfl

theorem lockRow_eq (kind : LockKind) (row : Row α) : lockRow kind row = row.lock kind := by
  cases kind <;> rfl

namespace System

variable {τ ω : Type} {s s' : System τ ω κ α} {t : τ} {held : Nat → Option (κ × LockKind)}
  {x : Transaction κ α}

section

variable [DecidableEq κ]

inductive Effect (s s' : System τ ω κ α) (t : τ) (held : Nat → Option (κ × LockKind)) :
    (Nat → Option (κ × LockKind)) → Prop
  | internal (hrows : s'.rows = s.rows) (hhistory : s'.history = s.history)
      (hcommitted : s'.committed = s.committed)
      (hstatus : (s'.txns t).stage.status = (s.txns t).stage.status) : Effect s s' t held held
  | lock {i : Nat} {k : κ} {kind : LockKind} {tid : Word} {row : Row α} (hfree : held i = none)
      (hlock : (s.rows k).lock kind = some (tid, row))
      (hrows : s'.rows = update s.rows k row)
      (hhistory : s'.history = s.history ++ [⟨t, k, .read, (s.rows k).value⟩])
      (hcommitted : s'.committed = s.committed) (hactive : (s.txns t).stage.status = .active)
      (hstatus : (s'.txns t).stage.status = .active) :
      Effect s s' t held (update held i (some (k, kind)))
  | write {i : Nat} {k : κ} {value : α} (hheld : held i = some (k, .write))
      (hrows : s'.rows = update s.rows k ((s.rows k).update value))
      (hhistory : s'.history = s.history ++ [⟨t, k, .write, value⟩])
      (hcommitted : s'.committed = s.committed) (hdone : (s.txns t).stage.status = .committed)
      (hstatus : (s'.txns t).stage.status = .committed) : Effect s s' t held held
  | release {i : Nat} {k : κ} {kind : LockKind} {row : Row α} {commit_tid : Option Word}
      (hheld : held i = some (k, kind))
      (hrelease : releaseRow commit_tid kind (s.rows k) = some row)
      (hrows : s'.rows = update s.rows k row) (hhistory : s'.history = s.history)
      (hcommitted : s'.committed = s.committed) (hdone : (s.txns t).stage.status ≠ .active)
      (hstatus : (s'.txns t).stage.status = (s.txns t).stage.status) :
      Effect s s' t held (update held i none)
  | commit (hrows : s'.rows = s.rows) (hhistory : s'.history = s.history)
      (hcommitted : s'.committed = s.committed ++ [t])
      (hactive : (s.txns t).stage.status = .active)
      (hstatus : (s'.txns t).stage.status = .committed) : Effect s s' t held held
  | abort (hrows : s'.rows = s.rows) (hhistory : s'.history = s.history)
      (hcommitted : s'.committed = s.committed) (hactive : (s.txns t).stage.status = .active)
      (hstatus : (s'.txns t).stage.status = .aborted) : Effect s s' t held held

def Follows (s s' : System τ ω κ α) (t : τ) (held : Nat → Option (κ × LockKind)) : Prop :=
  (∀ u ≠ t, s'.txns u = s.txns u) ∧
    ∃ held', Effect s s' t held held' ∧ (s'.txns t).Tracks held'

end

variable [DecidableEq τ] [DecidableEq κ]

omit [DecidableEq κ] in
@[simp]
theorem setTxn_self (s : System τ ω κ α) (t : τ) (x : Transaction κ α) :
    (s.setTxn t x).txns t = x :=
  update_self ..

omit [DecidableEq κ] in
theorem setTxn_of_ne {u : τ} (h : u ≠ t) : (s.setTxn t x).txns u = s.txns u :=
  update_of_ne h ..

theorem Follows.internal (h : x.Tracks held)
    (hstatus : x.stage.status = (s.txns t).stage.status) : s.Follows (s.setTxn t x) t held := by
  refine ⟨fun u hu => setTxn_of_ne hu, held, .internal rfl rfl rfl ?_, ?_⟩
  · rw [setTxn_self, hstatus]
  · rw [setTxn_self]
    exact h

theorem Follows.abort (h : x.Tracks held) (hactive : (s.txns t).stage.status = .active)
    (hstatus : x.stage.status = .aborted) : s.Follows (s.setTxn t x) t held := by
  refine ⟨fun u hu => setTxn_of_ne hu, held, .abort rfl rfl rfl hactive ?_, ?_⟩
  · rw [setTxn_self, hstatus]
  · rw [setTxn_self]
    exact h

variable {i : Nat} {k : κ} {kind : LockKind}

theorem Follows.lock {tid : Word} {row : Row α} {value : α}
    (h : x.Tracks (update held i (some (k, kind)))) (hfree : held i = none)
    (hlock : (s.rows k).lock kind = some (tid, row)) (hvalue : value = (s.rows k).value)
    (hactive : (s.txns t).stage.status = .active) (hstatus : x.stage.status = .active) :
    s.Follows (((s.setRow k row).record t k .read value).setTxn t x) t held := by
  refine ⟨fun u hu => setTxn_of_ne hu, _, .lock hfree hlock rfl ?_ rfl hactive ?_, ?_⟩
  · rw [← hvalue]
    rfl
  · rw [setTxn_self, hstatus]
  · rw [setTxn_self]
    exact h

theorem Follows.write {value : α} (h : x.Tracks held) (hheld : held i = some (k, .write))
    (hdone : (s.txns t).stage.status = .committed) (hstatus : x.stage.status = .committed) :
    s.Follows (((s.setRow k ((s.rows k).update value)).record t k .write value).setTxn t x) t
      held := by
  refine ⟨fun u hu => setTxn_of_ne hu, held, .write hheld rfl rfl rfl hdone ?_, ?_⟩
  · rw [setTxn_self, hstatus]
  · rw [setTxn_self]
    exact h

theorem Follows.release {row : Row α} {commit_tid : Option Word}
    (h : x.Tracks (update held i none)) (hheld : held i = some (k, kind))
    (hrelease : releaseRow commit_tid kind (s.rows k) = some row)
    (hdone : (s.txns t).stage.status ≠ .active)
    (hstatus : x.stage.status = (s.txns t).stage.status) :
    s.Follows ((s.setRow k row).setTxn t x) t held := by
  refine ⟨fun u hu => setTxn_of_ne hu, _, .release hheld hrelease rfl rfl rfl hdone ?_, ?_⟩
  · rw [setTxn_self, hstatus]
  · rw [setTxn_self]
    exact h

variable [DecidableEq ω] {c : Cluster τ ω κ}

omit [DecidableEq τ] [DecidableEq ω] in
theorem call_follows {y : Transaction κ α} {call : Call κ α} (h : x.Tracks held)
    (hstage : x.stage = .executing) (hcall : System.call c t x call = some y) :
    y.Tracks held ∧ (y.stage.status = .active ∨ y.stage.status = .aborted) := by
  have hactive : x.stage.status = .active := by
    rw [hstage]
    rfl
  cases call with
  | search_for_read key =>
    cases hcall
    exact ⟨h.search hstage key .read, .inl hactive⟩
  | search_for_update key =>
    cases hcall
    exact ⟨h.search hstage key .write, .inl hactive⟩
  | update key value =>
    obtain ⟨hany, hy⟩ := ite_none_right_eq_some.mp hcall
    cases hy
    obtain ⟨r, hr, hreq⟩ := any_eq_true.mp hany
    rw [Bool.and_eq_true, decide_eq_true_eq, beq_iff_eq] at hreq
    refine ⟨h.setWriteSet hstage fun k hk => ?_, .inl hactive⟩
    rw [map_append, mem_append, map_singleton, mem_singleton] at hk
    exact hk.imp_right fun hk => ⟨r, hr, hreq.1.trans hk.symm, hreq.2⟩
  | assign i value =>
    cases hcall
    refine ⟨h.setWriteSet hstage fun k hk => .inl ?_, .inl hactive⟩
    have hkeys : (x.writeSet.modify i fun w => (w.1, value)).map Prod.fst =
        x.writeSet.map Prod.fst := by
      apply ext_getElem?
      intro j
      simp only [List.getElem?_map, List.getElem?_modify]
      cases x.writeSet[j]? with
      | none => rfl
      | some w => by_cases hij : i = j <;> simp [hij]
    rw [hkeys] at hk
    exact hk
  | process_requests =>
    cases hcall
    exact ⟨h.process_requests hstage, .inl rfl⟩
  | commit =>
    simp only [call] at hcall
    split at hcall
    · cases hcall
      exact ⟨h.abort hstage, .inr rfl⟩
    · rename_i hfailed
      obtain ⟨hready, hy⟩ := ite_none_right_eq_some.mp hcall
      cases hy
      refine ⟨h.prepare hstage hfailed hready _, .inl ?_⟩
      rw [Transaction.Tracks.foldl_awaits]
      rfl
  | abort =>
    cases hcall
    exact ⟨h.abort hstage, .inr rfl⟩

section

omit [DecidableEq ω]

theorem request_follows {r : ReadKey κ α} {todo : List Nat} (h : (s.txns t).Tracks held)
    (hstage : (s.txns t).stage = .requests (i :: todo)) (hr : (s.txns t).readSet[i]? = some r) :
    s.Follows (s.request c t (s.txns t) i r todo) t held := by
  have hactive : (s.txns t).stage.status = .active := by
    rw [hstage]
    rfl
  rw [request]
  split
  · rw [lockAndRead_eq]
    cases hlock : (s.rows r.key).lock r.lock_request with
    | none => exact .internal (h.request_fails hstage) hactive.symm
    | some locked =>
      obtain ⟨tid, row⟩ := locked
      exact .lock (h.request_local hstage hr _ tid) (h.unprocessed_of_todo hstage hr).2.1
        hlock rfl hactive rfl
  · exact .internal (h.request_remote hstage hr) hactive.symm

theorem write_follows {commit_tid : Word} {w : κ × α} {todo : List (κ × α)}
    (h : (s.txns t).Tracks held) (hstage : (s.txns t).stage = .writing commit_tid (w :: todo)) :
    s.Follows (s.write c t (s.txns t) commit_tid w todo) t held := by
  have hdone : (s.txns t).stage.status = .committed := by
    rw [hstage]
    rfl
  have hahead := h.ahead
  rw [Transaction.Ahead, hstage] at hahead
  obtain ⟨i, hheld⟩ := h.exists_held hstage (hahead.2.1 w mem_cons_self)
  rw [write]
  split
  · exact .write (h.write_local hstage) hheld hdone rfl
  · exact .internal (h.write_remote hstage) hdone.symm

theorem release_follows {commit_tid : Option Word} {r : ReadKey κ α} {stage : Stage κ α}
    {todo : List (Nat × LockKind)} (h : (s.txns t).Tracks held)
    (hstage : (s.txns t).stage.releases = some ((i, kind) :: todo))
    (hstage' : stage.releases = some todo) (hstatus : stage.status = (s.txns t).stage.status)
    (hr : (s.txns t).readSet[i]? = some r)
    (hrelease : s.release c t (s.txns t) commit_tid i kind r stage = some s') :
    s.Follows s' t held := by
  have hdone : (s.txns t).stage.status ≠ .active := Stage.status_releases hstage
  rw [release] at hrelease
  split at hrelease
  · obtain ⟨row, hrow, rfl⟩ := map_eq_some_iff.mp hrelease
    exact .release (h.release_local hstage hstage' hr) (h.release_turn hstage hstage' hr).2.1
      hrow hdone hstatus
  · cases hrelease
    exact .internal (h.release_remote hstage hstage' hr commit_tid) hstatus

end

theorem run_follows (h : (s.txns t).Tracks held)
    (hrun : s.runStep c t (s.txns t) = some s') : s.Follows s' t held := by
  unfold runStep at hrun
  split at hrun
  case h_1 => cases hrun
  case h_2 hstage =>
      obtain ⟨hpending, hs'⟩ := ite_none_right_eq_some.mp hrun
      cases hs'
      exact .internal (h.requests_done hstage hpending) (by rw [hstage]; rfl)
  case h_3 i todo hstage =>
      obtain ⟨r, hr, rfl⟩ := map_eq_some_iff.mp hrun
      exact request_follows h hstage hr
  case h_4 hstage =>
      obtain ⟨hpending, hs'⟩ := ite_none_right_eq_some.mp hrun
      cases hs'
      refine ⟨fun u hu => setTxn_of_ne hu, held, .commit rfl rfl rfl (by rw [hstage]; rfl) ?_, ?_⟩
      · simp only [setTxn_self]
        rfl
      · simp only [setTxn_self]
        exact h.prepare_done hstage hpending _
  case h_5 commit_tid w todo hstage =>
      cases hrun
      exact write_follows h hstage
  case h_6 commit_tid hstage =>
      obtain ⟨hpending, hs'⟩ := ite_none_right_eq_some.mp hrun
      cases hs'
      exact .internal (h.writes_done hstage hpending) (by rw [hstage]; rfl)
  case h_7 commit_tid i kind todo hstage =>
      obtain ⟨r, hr, hrelease⟩ := bind_eq_some_iff.mp hrun
      exact release_follows h (by rw [hstage]; rfl) rfl (by rw [hstage]; rfl) hr hrelease
  case h_8 i kind todo hstage =>
      obtain ⟨r, hr, hrelease⟩ := bind_eq_some_iff.mp hrun
      exact release_follows h (by rw [hstage]; rfl) rfl (by rw [hstage]; rfl) hr hrelease
  case h_9 => cases hrun
  case h_10 => cases hrun

omit [DecidableEq ω] in
theorem handle_releaseMessage (commit_tid : Option Word) (kind : LockKind) (k : κ) (i : Nat) :
    s.handle t x (releaseMessage commit_tid kind k i) =
      (releaseRow commit_tid kind (s.rows k)).map fun row => (s.setRow k row).setTxn t x := by
  cases commit_tid <;> cases kind <;> rfl

omit [DecidableEq ω] in
theorem handle_follows {n : Nat} {m : TwoPLMessage κ α} (h : (s.txns t).Tracks held)
    (hn : (s.txns t).messages[n]? = some m)
    (hhandle : s.handle t ((s.txns t).takes n) m = some s') : s.Follows s' t held := by
  have hpurpose : (s.txns t).stage.purpose = some m.purpose := h.sent m (mem_of_getElem? hn)
  have hrelease : m.purpose = .release → s.Follows s' t held := by
    intro hm
    obtain ⟨i, r, commit_tid, rfl, hheld, htracks⟩ := h.released hn hm
    rw [handle_releaseMessage] at hhandle
    obtain ⟨row, hrow, rfl⟩ := map_eq_some_iff.mp hhandle
    exact .release htracks hheld hrow (Stage.status_of_release (hm ▸ hpurpose)) rfl
  cases m with
  | LOCK_REQUEST kind k i =>
    have hactive := Stage.status_of_lock hpurpose
    obtain ⟨hheld, hrefused, hanswered⟩ := h.answer hn
    simp only [handle, lockRow_eq] at hhandle
    cases hlock : (s.rows k).lock kind with
    | none =>
      rw [hlock] at hhandle
      cases hhandle
      exact .internal hrefused rfl
    | some locked =>
      obtain ⟨tid, row⟩ := locked
      rw [hlock] at hhandle
      obtain ⟨value, hvalue, rfl⟩ := map_eq_some_iff.mp hhandle
      have hread : value = (s.rows k).value := by
        rw [← (Row.lock_eq_some hlock).2.2.1]
        exact (some.inj (ite_none_right_eq_some.mp hvalue).2).symm
      exact .lock (hanswered value tid) hheld hlock hread hactive hactive
  | LOCK_RESPONSE kind i result =>
    cases hhandle
    obtain ⟨htracks, hstage⟩ := h.response hn
    exact .internal htracks (by rw [hstage])
  | PREPARE_REQUEST =>
    cases hhandle
    refine .internal (h.deliver hn rfl (l := [.PREPARE_RESPONSE]) ?_ _ rfl) rfl
    intro m hm
    rw [mem_singleton.mp hm]
    exact ⟨rfl, rfl, fun _ _ _ => nofun⟩
  | PREPARE_RESPONSE | WRITE_RESPONSE =>
    cases hhandle
    refine .internal ?_ rfl
    have htracks := h.deliver hn rfl (l := []) (by simp) _ (h.pending_pos hn rfl)
    rw [append_nil] at htracks
    exact htracks
  | WRITE_REQUEST k value commit_tid =>
    cases hhandle
    obtain ⟨tid, todo, hstage⟩ := Stage.exists_writing hpurpose
    have hdone : (s.txns t).stage.status = .committed := by
      rw [hstage]
      rfl
    have hahead := h.ahead
    unfold Transaction.Ahead at hahead
    rw [hstage] at hahead
    obtain ⟨i, hheld⟩ :=
      h.exists_held hstage (hahead.2.2 k value commit_tid (mem_of_getElem? hn))
    refine .write (h.deliver hn rfl (l := [.WRITE_RESPONSE]) ?_ _ rfl) hheld hdone hdone
    intro m hm
    rw [mem_singleton.mp hm]
    exact ⟨rfl, rfl, fun _ _ _ => nofun⟩
  | ABORT_REQUEST | RELEASE_READ_LOCK_REQUEST | RELEASE_WRITE_LOCK_REQUEST => exact hrelease rfl

theorem step_follows {l : Label τ κ α} (h : (s.txns l.txn).Tracks held)
    (hstep : s.step c l = some s') : s.Follows s' l.txn held := by
  cases l with
  | call t call =>
    simp only [step] at hstep
    split at hstep
    · rename_i hstage
      obtain ⟨y, hy, rfl⟩ := map_eq_some_iff.mp hstep
      have hstage : (s.txns t).stage = .executing := by
        cases hx : (s.txns t).stage <;> simp_all
      have hactive : (s.txns t).stage.status = .active := by
        rw [hstage]
        rfl
      obtain ⟨htracks, hstatus | hstatus⟩ := call_follows h hstage hy
      · exact .internal htracks (hstatus.trans hactive.symm)
      · exact .abort htracks hactive hstatus
    · cases hstep
  | run t => exact run_follows h hstep
  | deliver t n =>
    obtain ⟨m, hn, hhandle⟩ := bind_eq_some_iff.mp hstep
    exact handle_follows h hn hhandle

end System

end Tigon.TwoPL
