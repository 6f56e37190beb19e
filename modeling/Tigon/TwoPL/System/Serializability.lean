import Tigon.TwoPL.System.Effects

namespace Tigon.TwoPL

open Function List Option

open Tigon.Library Tigon.Library.Schedule Tigon.Protocol.LockWord

variable {τ ω κ α : Type}

abbrev Locks (τ κ : Type) := τ → Nat → Option (κ × LockKind)

namespace Locks

def Holds (locks : Locks τ κ) (t : τ) (k : κ) (kind : LockKind) : Prop :=
  ∃ i, locks t i = some (k, kind)

variable [DecidableEq κ]

def holder (locks : Locks τ κ) (k : κ) (client : τ × Nat) : Option LockKind :=
  (locks client.1 client.2).bind fun l => if l.1 = k then some l.2 else none

variable {locks : Locks τ κ} {t : τ} {i : Nat} {k : κ} {kind : LockKind}

theorem holder_eq_some {client : τ × Nat} :
    locks.holder k client = some kind ↔ locks client.1 client.2 = some (k, kind) := by
  rw [holder, bind_eq_some_iff]
  constructor
  · rintro ⟨⟨k', kind'⟩, hl, hkind⟩
    obtain ⟨rfl, hsome⟩ := ite_none_right_eq_some.mp hkind
    rw [hl, ← some.inj hsome]
  · intro hl
    exact ⟨(k, kind), hl, if_pos rfl⟩

theorem holder_eq_none {client : τ × Nat} (h : locks client.1 client.2 = none) :
    locks.holder k client = none := by
  rw [holder, h, bind_none]

variable [DecidableEq τ]

def set (locks : Locks τ κ) (t : τ) (i : Nat) (lock : Option (κ × LockKind)) : Locks τ κ :=
  update locks t (update (locks t) i lock)

omit [DecidableEq κ] in
theorem set_apply (lock : Option (κ × LockKind)) (u : τ) (j : Nat) :
    locks.set t i lock u j = if (u, j) = (t, i) then lock else locks u j := by
  rw [set, update_apply]
  by_cases hu : u = t
  · subst hu
    rw [if_pos rfl, update_apply]
    simp
  · simp [hu]

theorem holder_set (lock : Option (κ × LockKind)) (k : κ) :
    (locks.set t i lock).holder k = update (locks.holder k) (t, i)
      (lock.bind fun l => if l.1 = k then some l.2 else none) := by
  funext ⟨u, j⟩
  rw [holder, set_apply, update_apply]
  split
  · rfl
  · rfl

end Locks

variable [DecidableEq κ] {locks : Locks τ κ} {t : τ} {i : Nat} {k : κ} {kind : LockKind}
  {word : Word}

theorem compatible_of_free (h : Accounts (locks.holder k) (view word))
    (hfree : (view word).free 511 kind = true) : Compatible locks.Holds t k kind := by
  rintro t' kind' ⟨j, hj⟩ -
  have hholder : locks.holder k (t', j) = some kind' := Locks.holder_eq_some.mpr hj
  cases kind' with
  | write => exact absurd hholder (h.not_writer_of_free hfree (t', j))
  | read =>
    cases kind with
    | read => exact ⟨rfl, rfl⟩
    | write => exact absurd hholder (h.not_reader_of_free hfree (t', j))

theorem compatible_of_writer (h : Accounts (locks.holder k) (view word))
    (hheld : locks t i = some (k, .write)) : Compatible locks.Holds t k .write := by
  rintro t' kind' ⟨j, hj⟩ hne
  have hwriter : locks.holder k (t, i) = some .write := Locks.holder_eq_some.mpr hheld
  have hholder : locks.holder k (t', j) = some kind' := Locks.holder_eq_some.mpr hj
  exact absurd (congrArg Prod.fst (h.exclusive hwriter hholder)) hne

theorem accounts_release [DecidableEq τ] {commit_tid : Option Word} {row row' : Row α}
    (h : Accounts (locks.holder k) (view row.tid)) (hheld : locks t i = some (k, kind))
    (hrelease : releaseRow commit_tid kind row = some row') :
    Accounts (update (locks.holder k) (t, i) none) (view row'.tid) ∧
      row'.value = row.value := by
  have hholder : locks.holder k (t, i) = some kind := Locks.holder_eq_some.mpr hheld
  cases kind with
  | read =>
    have hrow : row.read_lock_release = some row' := by
      cases commit_tid <;> exact hrelease
    obtain ⟨htid, hvalue⟩ := Row.read_lock_release_eq_some hrow
    have hpos : 0 < (view row.tid).readers := h.held hholder
    rw [htid, (view_dropReader hpos).1]
    exact ⟨h.release hholder, hvalue⟩
  | write =>
    refine ⟨h.release_write hholder _, ?_⟩
    cases commit_tid with
    | none => exact Row.write_lock_release_eq_some hrelease
    | some commit_tid => exact Row.write_lock_release_with_eq_some hrelease

namespace System

variable [DecidableEq τ] [DecidableEq ω]

def values (s : System τ ω κ α) (k : κ) : α := (s.rows k).value

structure Serial (init : κ → α) (s : System τ ω κ α) (locks : Locks τ κ) : Prop where
  tracks : ∀ t, (s.txns t).Tracks (locks t)
  accounts : ∀ k, Accounts (locks.holder k) (view (s.rows k).tid)
  twoPhase : TwoPhase locks.Holds (fun t => (s.txns t).stage.status ≠ .active) s.committed
    s.history
  legal : Legal init s.history
  values : s.values = replay init s.history
  committed : ∀ t, t ∈ s.committed ↔ (s.txns t).stage.status = .committed
  writers : ∀ a ∈ s.history, a.kind = .write → a.txn ∈ s.committed

namespace Serial

variable {init : κ → α} {s s' : System τ ω κ α} {t : τ} {held : Nat → Option (κ × LockKind)}

omit [DecidableEq τ] [DecidableEq ω] in
theorem start (h : s.Starts) : Serial s.values s fun _ _ => none where
  tracks t := by
    rw [h.txns]
    exact .init
  accounts k := Accounts.none _
  twoPhase := by
    rw [h.committed, h.history]
    have hholds : (Locks.Holds fun (_ : τ) _ => none) = fun _ (_ : κ) _ => False := by
      funext t k kind
      simp [Locks.Holds]
    rw [hholds]
    exact .nil _
  legal := by
    rw [h.history]
    exact .nil _
  values := by
    rw [h.history]
    rfl
  committed t := by
    rw [h.committed, h.txns]
    simp [Transaction.init, Stage.status]
  writers := by simp [h.history]

section

omit [DecidableEq κ] [DecidableEq ω]

theorem status_eq (hothers : ∀ u ≠ t, s'.txns u = s.txns u)
    (hstatus : (s'.txns t).stage.status = (s.txns t).stage.status) (u : τ) :
    (s'.txns u).stage.status = (s.txns u).stage.status := by
  by_cases hu : u = t
  · subst hu
    exact hstatus
  · rw [hothers u hu]

theorem tracks_update (h : ∀ u, (s.txns u).Tracks (locks u))
    (hothers : ∀ u ≠ t, s'.txns u = s.txns u) (ht : (s'.txns t).Tracks held) (u : τ) :
    (s'.txns u).Tracks (update locks t held u) := by
  by_cases hu : u = t
  · subst hu
    rw [update_self]
    exact ht
  · rw [update_of_ne hu, hothers u hu]
    exact h u

end

variable {i : Nat} {k : κ}

section

omit [DecidableEq ω]

theorem lock {kind : LockKind} {tid : Word} {row : Row α} (h : Serial init s locks)
    (hothers : ∀ u ≠ t, s'.txns u = s.txns u)
    (htracks : (s'.txns t).Tracks (update (locks t) i (some (k, kind))))
    (hfree : locks t i = none) (hlock : (s.rows k).lock kind = some (tid, row))
    (hrows : s'.rows = update s.rows k row)
    (hhistory : s'.history = s.history ++ [⟨t, k, .read, (s.rows k).value⟩])
    (hcommitted : s'.committed = s.committed) (hactive : (s.txns t).stage.status = .active)
    (hstatus : (s'.txns t).stage.status = .active) :
    Serial init s' (locks.set t i (some (k, kind))) := by
  obtain ⟨hword, hview, hvalue, -⟩ := Row.lock_eq_some hlock
  have hcompatible : Compatible locks.Holds t k kind := compatible_of_free (h.accounts k) hword
  have hstatuses := status_eq hothers (hstatus.trans hactive.symm)
  have hvalues : s'.values = s.values := by
    funext k'
    rw [System.values, System.values, hrows, update_apply]
    split
    · rename_i hk
      rw [hk, hvalue]
    · rfl
  have hold : ∀ u k' kind', locks.Holds u k' kind' →
      (locks.set t i (some (k, kind))).Holds u k' kind' := by
    rintro u k' kind' ⟨j, hj⟩
    refine ⟨j, ?_⟩
    rw [Locks.set_apply, if_neg, hj]
    intro heq
    obtain ⟨rfl, rfl⟩ := Prod.mk.inj heq
    rw [hfree] at hj
    cases hj
  have hnew : ∀ u k' kind', (locks.set t i (some (k, kind))).Holds u k' kind' →
      locks.Holds u k' kind' ∨ (u = t ∧ k' = k ∧ kind' = kind) := by
    rintro u k' kind' ⟨j, hj⟩
    rw [Locks.set_apply] at hj
    split at hj
    · rename_i heq
      obtain ⟨rfl, rfl⟩ := Prod.mk.inj (some.inj hj)
      exact .inr ⟨congrArg Prod.fst heq, rfl, rfl⟩
    · exact .inl ⟨j, hj⟩
  refine ⟨tracks_update h.tracks hothers htracks, ?_, ?_, ?_, ?_, ?_, ?_⟩
  · intro k'
    rw [Locks.holder_set, hrows]
    by_cases hk : k' = k
    · subst hk
      rw [update_self, hview, bind_some, if_pos rfl]
      exact (h.accounts k').acquire hword (Locks.holder_eq_none hfree)
    · have hnone : locks.holder k' (t, i) = none := Locks.holder_eq_none hfree
      rw [update_of_ne hk, bind_some, if_neg (Ne.symm hk), ← hnone,
        update_eq_self]
      exact h.accounts k'
  · have hdone : (fun u => (s'.txns u).stage.status ≠ .active) =
        fun u => (s.txns u).stage.status ≠ .active :=
      funext fun u => by rw [hstatuses u]
    rw [hdone, hcommitted, hhistory]
    have hacquired := h.twoPhase.acquire (not_not.mpr hactive) hcompatible hold hnew
    have hheld : (locks.set t i (some (k, kind))).Holds t k kind :=
      ⟨i, by rw [Locks.set_apply, if_pos rfl]⟩
    refine hacquired.access hheld (.inr rfl) fun u kind' hholds hne => ?_
    rcases hnew _ _ _ hholds with hholds | ⟨rfl, -, -⟩
    · exact hcompatible u kind' hholds hne
    · exact absurd rfl hne
  · rw [hhistory]
    exact h.legal.concat fun _ => congrFun h.values k
  · rw [hvalues, hhistory, replay_concat, h.values]
    rfl
  · intro u
    rw [hcommitted, h.committed, hstatuses u]
  · intro a ha hwrite
    rw [hhistory] at ha
    rw [hcommitted]
    rcases mem_append.mp ha with ha | ha
    · exact h.writers a ha hwrite
    · rw [mem_singleton.mp ha] at hwrite
      cases hwrite

theorem write {value : α} (h : Serial init s locks) (hothers : ∀ u ≠ t, s'.txns u = s.txns u)
    (htracks : (s'.txns t).Tracks (locks t)) (hheld : locks t i = some (k, .write))
    (hrows : s'.rows = update s.rows k ((s.rows k).update value))
    (hhistory : s'.history = s.history ++ [⟨t, k, .write, value⟩])
    (hcommitted : s'.committed = s.committed) (hdone : (s.txns t).stage.status = .committed)
    (hstatus : (s'.txns t).stage.status = .committed) : Serial init s' locks := by
  have hstatuses := status_eq hothers (hstatus.trans hdone.symm)
  refine ⟨?_, ?_, ?_, ?_, ?_, ?_, ?_⟩
  · have hupdate := tracks_update h.tracks hothers htracks
    rw [update_eq_self] at hupdate
    exact hupdate
  · intro k'
    rw [hrows]
    by_cases hk : k' = k
    · subst hk
      rw [update_self]
      exact h.accounts k'
    · rw [update_of_ne hk]
      exact h.accounts k'
  · have hsame : (fun u => (s'.txns u).stage.status ≠ .active) =
        fun u => (s.txns u).stage.status ≠ .active :=
      funext fun u => by rw [hstatuses u]
    rw [hsame, hcommitted, hhistory]
    have hholds : locks.Holds t k .write := ⟨i, hheld⟩
    exact h.twoPhase.access hholds (.inl rfl) (compatible_of_writer (h.accounts k) hheld)
  · rw [hhistory]
    exact h.legal.concat nofun
  · rw [hhistory, replay_concat, ← h.values]
    funext k'
    change _ = update s.values k value k'
    rw [System.values, hrows, update_apply, update_apply]
    split <;> rfl
  · intro u
    rw [hcommitted, h.committed, hstatuses u]
  · intro a ha hwrite
    rw [hhistory] at ha
    rw [hcommitted]
    rcases mem_append.mp ha with ha | ha
    · exact h.writers a ha hwrite
    · rw [mem_singleton.mp ha, h.committed]
      exact hdone

theorem release {kind : LockKind} {row : Row α} {commit_tid : Option Word} (h : Serial init s locks)
    (hothers : ∀ u ≠ t, s'.txns u = s.txns u)
    (htracks : (s'.txns t).Tracks (update (locks t) i none))
    (hheld : locks t i = some (k, kind))
    (hrelease : releaseRow commit_tid kind (s.rows k) = some row)
    (hrows : s'.rows = update s.rows k row) (hhistory : s'.history = s.history)
    (hcommitted : s'.committed = s.committed) (hdone : (s.txns t).stage.status ≠ .active)
    (hstatus : (s'.txns t).stage.status = (s.txns t).stage.status) :
    Serial init s' (locks.set t i none) := by
  obtain ⟨haccounts, hvalue⟩ := accounts_release (h.accounts k) hheld hrelease
  have hstatuses := status_eq hothers hstatus
  refine ⟨tracks_update h.tracks hothers htracks, ?_, ?_, ?_, ?_, ?_, ?_⟩
  · intro k'
    rw [Locks.holder_set, hrows, bind_none]
    by_cases hk : k' = k
    · subst hk
      rw [update_self]
      exact haccounts
    · have hnone : locks.holder k' (t, i) = none := by
        rw [Locks.holder, hheld, bind_some, if_neg (Ne.symm hk)]
      rw [update_of_ne hk, ← hnone, update_eq_self]
      exact h.accounts k'
  · rw [hcommitted, hhistory]
    refine h.twoPhase.release (fun u => (hstatuses u ▸ ·)) ?_ ?_
    · rintro u k' kind' ⟨j, hj⟩
      rw [Locks.set_apply] at hj
      split at hj
      · cases hj
      · exact ⟨j, hj⟩
    · rintro u k' kind' ⟨j, hj⟩
      by_cases hu : u = t
      · subst hu
        exact .inl (hstatuses u ▸ hdone)
      · refine .inr ⟨j, ?_⟩
        rw [Locks.set_apply, if_neg fun heq => hu (congrArg Prod.fst heq), hj]
  · rw [hhistory]
    exact h.legal
  · rw [hhistory, ← h.values]
    funext k'
    rw [System.values, System.values, hrows, update_apply]
    split
    · rename_i hk
      rw [hk, hvalue]
    · rfl
  · intro u
    rw [hcommitted, h.committed, hstatuses u]
  · rw [hhistory, hcommitted]
    exact h.writers

theorem quiet (h : Serial init s locks) (hothers : ∀ u ≠ t, s'.txns u = s.txns u)
    (htracks : (s'.txns t).Tracks (locks t)) (hrows : s'.rows = s.rows)
    (hhistory : s'.history = s.history)
    (htwoPhase : TwoPhase locks.Holds (fun u => (s'.txns u).stage.status ≠ .active) s'.committed
      s.history)
    (hcommitted : ∀ u, u ∈ s'.committed ↔ (s'.txns u).stage.status = .committed)
    (hmono : ∀ u ∈ s.committed, u ∈ s'.committed) : Serial init s' locks where
  tracks := by
    have hupdate := tracks_update h.tracks hothers htracks
    rw [update_eq_self] at hupdate
    exact hupdate
  accounts k := by
    rw [hrows]
    exact h.accounts k
  twoPhase := by
    rw [hhistory]
    exact htwoPhase
  legal := by
    rw [hhistory]
    exact h.legal
  values := by
    rw [hhistory, ← h.values]
    funext k
    rw [System.values, System.values, hrows]
  committed := hcommitted
  writers a ha hwrite := by
    rw [hhistory] at ha
    exact hmono _ (h.writers a ha hwrite)

theorem effect {held' : Nat → Option (κ × LockKind)} (h : Serial init s locks)
    (hothers : ∀ u ≠ t, s'.txns u = s.txns u) (htracks : (s'.txns t).Tracks held')
    (heffect : Effect s s' t (locks t) held') : ∃ locks', Serial init s' locks' := by
  cases heffect with
  | lock hfree hlock hrows hhistory hcommitted hactive hstatus =>
    exact ⟨_, h.lock hothers htracks hfree hlock hrows hhistory hcommitted hactive hstatus⟩
  | write hheld hrows hhistory hcommitted hdone hstatus =>
    exact ⟨_, h.write hothers htracks hheld hrows hhistory hcommitted hdone hstatus⟩
  | release hheld hrelease hrows hhistory hcommitted hdone hstatus =>
    exact ⟨_, h.release hothers htracks hheld hrelease hrows hhistory hcommitted hdone hstatus⟩
  | internal hrows hhistory hcommitted hstatus =>
    have hstatuses := status_eq hothers hstatus
    refine ⟨locks, h.quiet hothers htracks hrows hhistory ?_ ?_ ?_⟩
    · rw [hcommitted]
      exact h.twoPhase.release (fun u => (hstatuses u ▸ ·))
        (fun _ _ _ hholds => hholds) fun _ _ _ hholds => .inr hholds
    · intro u
      rw [hcommitted, h.committed, hstatuses u]
    · rw [hcommitted]
      exact fun _ hu => hu
  | commit hrows hhistory hcommitted hactive hstatus =>
    refine ⟨locks, h.quiet hothers htracks hrows hhistory ?_ ?_ ?_⟩
    · rw [hcommitted]
      refine h.twoPhase.commit (not_not.mpr hactive) fun u => ?_
      by_cases hu : u = t
      · subst hu
        simp [hstatus]
      · simp [hothers u hu, hu]
    · intro u
      rw [hcommitted, mem_append, mem_singleton, h.committed]
      by_cases hu : u = t
      · subst hu
        simp [hstatus]
      · simp [hothers u hu, hu]
    · intro u hu
      rw [hcommitted]
      exact mem_append_left _ hu
  | abort hrows hhistory hcommitted hactive hstatus =>
    refine ⟨locks, h.quiet hothers htracks hrows hhistory ?_ ?_ ?_⟩
    · rw [hcommitted]
      refine h.twoPhase.release (fun u hdone => ?_) (fun _ _ _ hholds => hholds)
        fun _ _ _ hholds => .inr hholds
      by_cases hu : u = t
      · subst hu
        exact absurd hactive hdone
      · rw [hothers u hu]
        exact hdone
    · intro u
      rw [hcommitted, h.committed]
      by_cases hu : u = t
      · subst hu
        simp [hstatus, hactive]
      · rw [hothers u hu]
    · rw [hcommitted]
      exact fun _ hu => hu

end

end Serial

variable {c : Cluster τ ω κ} {start s : System τ ω κ α}

theorem exists_serial (hstart : start.Starts)
    (hreach : Reach (step c) (fun _ _ => True) start s) :
    ∃ locks, Serial start.values s locks := by
  refine hreach.invariant (P := fun s => ∃ locks, Serial start.values s locks)
    ⟨_, .start hstart⟩ ?_
  rintro s l s' ⟨locks, hserial⟩ - hstep
  obtain ⟨hothers, held', heffect, htracks⟩ := step_follows (hserial.tracks l.txn) hstep
  exact hserial.effect hothers htracks heffect

-- In every run: the committed transactions are conflict-serializable, every read returns the
-- last write in front of it, the values are what the writes have left, and these are writes
-- of transactions whose commit went through.
theorem conflict_serializable (hstart : start.Starts)
    (hreach : Reach (step c) (fun _ _ => True) start s) :
    ConflictSerializable s.history s.committed ∧ Legal start.values s.history ∧
      s.values = replay start.values s.history ∧
      (∀ t, t ∈ s.committed ↔ (s.txns t).stage.status = .committed) ∧
      ∀ t, (s.txns t).stage.status = .aborted → ∀ a ∈ s.history, a.txn = t → a.kind = .read := by
  obtain ⟨locks, hserial⟩ := exists_serial hstart hreach
  refine ⟨hserial.twoPhase.conflictSerializable, hserial.legal, hserial.values,
    hserial.committed, fun t habort a ha htxn => ?_⟩
  cases hkind : a.kind with
  | read => rfl
  | write =>
    have hcommitted := (hserial.committed _).mp (hserial.writers a ha hkind)
    rw [htxn, habort] at hcommitted
    cases hcommitted

def twoCoordinators : Cluster (Fin 2) (Fin 2) (Fin 2) :=
  ⟨Fin.val, id, Fin.val, id⟩

def twoTransactions : System (Fin 2) (Fin 2) (Fin 2) Nat :=
  ⟨fun _ => ⟨0, true, 5⟩, fun _ => Transaction.init, fun _ => 0, [], []⟩

def updateThenRead : List (Label (Fin 2) (Fin 2) Nat) :=
  [.call 0 (.search_for_update 0), .call 0 (.search_for_read 1), .call 0 (.update 0 7),
    .call 0 .process_requests, .run 0, .run 0, .deliver 0 0, .deliver 0 0, .run 0,
    .call 0 .commit, .deliver 0 0, .deliver 0 0, .run 0, .run 0, .run 0, .run 0, .run 0,
    .deliver 0 0,
    .call 1 (.search_for_read 0), .call 1 .process_requests, .run 1, .deliver 1 0, .deliver 1 0,
    .run 1, .call 1 .commit, .deliver 1 0, .deliver 1 0, .run 1]

theorem conflict_serializable_updateThenRead :
    ∃ s, Reach (step twoCoordinators) (fun _ _ => True) twoTransactions s ∧
      s.committed = [0, 1] ∧
      s.history = [⟨0, 0, .read, 5⟩, ⟨0, 1, .read, 5⟩, ⟨0, 0, .write, 7⟩, ⟨1, 0, .read, 7⟩] ∧
      ConflictSerializable s.history s.committed ∧
      s.values = replay twoTransactions.values s.history := by
  obtain ⟨s, hreach, hcommitted, hhistory⟩ := exists_reach_of_run (step twoCoordinators)
    (fun _ _ => True) twoTransactions updateThenRead
    (fun s => s.committed = [0, 1] ∧ s.history =
      [⟨0, 0, .read, 5⟩, ⟨0, 1, .read, 5⟩, ⟨0, 0, .write, 7⟩, ⟨1, 0, .read, 7⟩])
    (by decide +kernel)
  have hserial := conflict_serializable ⟨fun _ => rfl, rfl, rfl⟩ hreach
  exact ⟨s, hreach, hcommitted, hhistory, hserial.1, hserial.2.2.1⟩

end System

end Tigon.TwoPL
