import Mathlib.Logic.Function.Basic
import Tigon.Library.Transition
import Tigon.Sundial.Row

namespace Tigon.Sundial

open Function List Option Tigon.Library

-- A transaction as far as one row goes: `lock_rts` is the rts it has for the row from
-- `write_lock`, or from the read it makes under the lock, and `locked_write_set` says that
-- `lock_write_set` has been through the row since.
structure Holder where
  commit_ts : Nat
  lock_rts : Option Nat
  locked_write_set : Bool
deriving DecidableEq

-- A version of the row with the time it can be read in, and under which hold of the lock
-- it was installed.
structure Version where
  wts : Nat
  rts : Nat
  hold : Nat
deriving DecidableEq

-- One row under any number of transactions. `holds` counts how often the lock was taken,
-- `replaced` are the versions that were overwritten, the last one first.
structure Lease (τ α : Type) where
  row : Row τ α
  txns : τ → Holder
  holds : Nat
  hold : Nat
  replaced : List Version

inductive LeaseLabel (τ α : Type)
  | read (t : τ)
  | write_lock (t : τ)
  -- what `lock_write_set` does for this row once the lock is held
  | lock_write_set (t : τ)
  -- what reads and locks of other rows do to the transaction's commit_ts
  | raise (t : τ) (ts : Nat)
  | renew_lease (t : τ) (wts : Nat)
  | update (t : τ) (value : α)
  | unlock (t : τ)
deriving DecidableEq

namespace Lease

variable {τ α : Type} [DecidableEq τ]

def start (row : Row τ α) (commit_ts : τ → Nat) : Lease τ α where
  row := row
  txns t := ⟨commit_ts t, none, false⟩
  holds := 0
  hold := 0
  replaced := []

def current (s : Lease τ α) : Version := ⟨s.row.wts, s.row.rts, s.hold⟩

def versions (s : Lease τ α) : List Version := s.current :: s.replaced

def onTxn (s : Lease τ α) (t : τ) (f : Holder → Holder) : Lease τ α :=
  { s with txns := update s.txns t (f (s.txns t)) }

def read (s : Lease τ α) (t : τ) : Lease τ α :=
  if s.row.owner = some t then s.onTxn t fun x => { x with lock_rts := some s.row.read.1.2 }
  else s

def write_lock (s : Lease τ α) (t : τ) : Lease τ α :=
  match s.row.write_lock t with
  | (row, true, rwts) =>
    if s.row.owner = some t then
      { s.onTxn t (fun x => { x with lock_rts := some rwts.2 }) with row := row }
    else
      { s.onTxn t (fun x => ⟨x.commit_ts, some rwts.2, false⟩) with
        row := row
        holds := s.holds + 1 }
  | (row, false, _) => { s with row := row }

def lock_write_set (s : Lease τ α) (t : τ) : Lease τ α :=
  match (s.txns t).lock_rts with
  | some rts => s.onTxn t fun x =>
    { x with commit_ts := max x.commit_ts (rts + 1), locked_write_set := true }
  | none => s

def update (s : Lease τ α) (t : τ) (value : α) : Option (Lease τ α) :=
  if (s.txns t).locked_write_set then
    (s.row.update value (s.txns t).commit_ts t).map fun row =>
      { s with row := row, hold := s.holds, replaced := s.versions }
  else none

def unlock (s : Lease τ α) (t : τ) : Option (Lease τ α) :=
  (s.row.unlock t).map fun row =>
    { s.onTxn t (fun x => ⟨x.commit_ts, none, false⟩) with row := row }

def step (s : Lease τ α) : LeaseLabel τ α → Option (Lease τ α)
  | .read t => some (s.read t)
  | .write_lock t => some (s.write_lock t)
  | .lock_write_set t => some (s.lock_write_set t)
  | .raise t ts => some (s.onTxn t fun x => { x with commit_ts := max x.commit_ts ts })
  | .renew_lease t wts =>
    some { s with row := (s.row.renew_lease wts (s.txns t).commit_ts).1 }
  | .update t value => s.update t value
  | .unlock t => s.unlock t

-- The version came before the other one, or both were installed by one transaction under
-- one hold of the lock.
def Before (older newer : Version) : Prop :=
  older.rts < newer.wts ∨ (older.hold = newer.hold ∧ older.rts ≤ newer.wts)

-- The lock's holder knows the rts of the version it is going to replace; once it has
-- replaced it, what it installed ends at its own commit_ts.
structure Holds (s : Lease τ α) (t : τ) : Prop where
  knows : ∃ rts, (s.txns t).lock_rts = some rts ∧
    (rts = s.row.rts ∨
      (s.hold = s.holds ∧ (s.txns t).locked_write_set = true ∧ s.row.rts ≤ (s.txns t).commit_ts))
  exceeds : (s.txns t).locked_write_set = true → s.row.rts < (s.txns t).commit_ts ∨
    (s.hold = s.holds ∧ s.row.rts ≤ (s.txns t).commit_ts)

structure WF (s : Lease τ α) : Prop where
  ordered : s.row.wts ≤ s.row.rts
  hold_le : s.hold ≤ s.holds
  holder : ∀ t, s.row.owner = some t → s.Holds t
  unlocked : ∀ t, s.row.owner ≠ some t →
    (s.txns t).lock_rts = none ∧ (s.txns t).locked_write_set = false
  replaced : ∀ v ∈ s.replaced, v.wts ≤ v.rts ∧ Before v s.current
  chain : s.replaced.Pairwise fun newer older => Before older newer

variable {s s' : Lease τ α} {t : τ}

theorem Before.trans {u v w : Version} (huv : Before u v) (hv : v.wts ≤ v.rts)
    (hvw : Before v w) : Before u w := by
  unfold Before at *
  omega

-- A change of the lock's holder that keeps what it has to know, or of a transaction that
-- has nothing to know.
theorem WF.onTxn (h : s.WF) {f : Holder → Holder}
    (hholder : s.row.owner = some t → (s.onTxn t f).Holds t)
    (hother : s.row.owner ≠ some t →
      (f (s.txns t)).lock_rts = none ∧ (f (s.txns t)).locked_write_set = false) :
    (s.onTxn t f).WF := by
  refine ⟨h.ordered, h.hold_le, fun u hu => ?_, fun u hu => ?_, h.replaced, h.chain⟩
  · by_cases hut : u = t
    · subst hut
      exact hholder hu
    · have htxn : (s.onTxn t f).txns u = s.txns u := update_of_ne hut _ _
      have hknow := h.holder u hu
      exact ⟨by rw [htxn]; exact hknow.knows, by rw [htxn]; exact hknow.exceeds⟩
  · by_cases hut : u = t
    · subst hut
      have htxn : (s.onTxn u f).txns u = f (s.txns u) := update_self _ _ _
      rw [htxn]
      exact hother hu
    · have htxn : (s.onTxn t f).txns u = s.txns u := update_of_ne hut _ _
      rw [htxn]
      exact h.unlocked u hu

theorem wf_read (h : s.WF) : (s.read t).WF := by
  unfold read
  split
  · rename_i howner
    refine h.onTxn (fun _ => ⟨⟨s.row.rts, ?_, .inl rfl⟩, ?_⟩) fun hne => absurd howner hne
    · simp [Lease.onTxn, Row.read, Row.rwts]
    · simpa [Lease.onTxn] using (h.holder t howner).exceeds
  · exact h

theorem wf_lock (h : s.WF) (howner : s.row.owner = none) :
    { s.onTxn t (fun x => ⟨x.commit_ts, some s.row.rts, false⟩) with
      row := { s.row with owner := some t }
      holds := s.holds + 1 }.WF := by
  have hle := h.hold_le
  refine ⟨h.ordered, Nat.le_succ_of_le hle, fun u hu => ?_, fun u hu => ?_, h.replaced, h.chain⟩
  · have hut : t = u := some.inj hu
    subst hut
    refine ⟨⟨s.row.rts, ?_, .inl rfl⟩, fun hlocked => ?_⟩
    · simp [Lease.onTxn]
    · simp [Lease.onTxn] at hlocked
  · have hut : u ≠ t := fun hut => hu (congrArg some hut.symm)
    have hnone := h.unlocked u (by rw [howner]; simp)
    simpa [Lease.onTxn, update_of_ne hut] using hnone

theorem wf_write_lock (h : s.WF) : (s.write_lock t).WF := by
  have hspec := s.row.write_lock_spec t
  unfold write_lock
  generalize s.row.write_lock t = res at hspec
  obtain ⟨row, ok, rwts⟩ := res
  rcases hspec with ⟨hok, -, hfree, hrow, hrwts⟩ | ⟨hok, hrow⟩
  · obtain rfl : ok = true := hok
    obtain rfl : row = { s.row with owner := some t } := hrow
    obtain rfl : rwts = s.row.rwts := hrwts
    dsimp only
    split
    · rename_i howner
      have hrow : { s.row with owner := some t } = s.row := by rw [← howner]
      rw [hrow]
      show (s.onTxn t fun x => { x with lock_rts := some s.row.rwts.2 }).WF
      refine h.onTxn (fun _ => ⟨⟨s.row.rts, ?_, .inl rfl⟩, ?_⟩) fun hne => absurd howner hne
      · simp [Lease.onTxn, Row.rwts]
      · simpa [Lease.onTxn] using (h.holder t howner).exceeds
    · rename_i howner
      exact wf_lock h (hfree.resolve_right howner)
  · obtain rfl : ok = false := hok
    obtain rfl : row = s.row := hrow
    exact h

theorem wf_lock_write_set (h : s.WF) : (s.lock_write_set t).WF := by
  unfold lock_write_set
  split
  · rename_i rts hrts
    refine h.onTxn (fun howner => ?_) fun hne => ?_
    · obtain ⟨⟨rts', hrts', hknow⟩, -⟩ := h.holder t howner
      obtain rfl : rts = rts' := by rw [hrts] at hrts'; exact some.inj hrts'
      refine ⟨⟨rts, by simp [Lease.onTxn, hrts], ?_⟩, fun _ => ?_⟩
      · refine hknow.imp_right fun ⟨hhold, _, hle⟩ => ⟨hhold, ?_, ?_⟩
        · simp [Lease.onTxn]
        · simp only [Lease.onTxn, update_self]
          omega
      · simp only [Lease.onTxn, update_self]
        rcases hknow with rfl | ⟨hhold, _, hle⟩
        · left
          omega
        · right
          exact ⟨hhold, by omega⟩
    · rw [(h.unlocked t hne).1] at hrts
      cases hrts
  · exact h

theorem wf_raise (h : s.WF) (ts : Nat) :
    (s.onTxn t fun x => { x with commit_ts := max x.commit_ts ts }).WF := by
  refine h.onTxn (fun howner => ?_) fun hne => h.unlocked t hne
  obtain ⟨⟨rts, hrts, hknow⟩, hexceeds⟩ := h.holder t howner
  refine ⟨⟨rts, by simpa [Lease.onTxn] using hrts, ?_⟩, fun hlocked => ?_⟩
  · refine hknow.imp_right fun ⟨hhold, hlocked, hle⟩ => ⟨hhold, ?_, ?_⟩
    · simpa [Lease.onTxn] using hlocked
    · simp only [Lease.onTxn, update_self]
      omega
  · simp only [Lease.onTxn, update_self] at hlocked ⊢
    rcases hexceeds hlocked with hlt | ⟨hhold, hle⟩
    · left
      omega
    · right
      exact ⟨hhold, by omega⟩

omit [DecidableEq τ] in
theorem wf_renew_lease (h : s.WF) (wts commit_ts : Nat) :
    { s with row := (s.row.renew_lease wts commit_ts).1 }.WF := by
  rcases s.row.renew_lease_spec wts commit_ts with ⟨-, -, hallowed, hrow⟩ | ⟨-, hrow⟩
  · rw [hrow]
    by_cases hle : commit_ts ≤ s.row.rts
    · rw [Nat.max_eq_left hle]
      exact h
    · have hnone := hallowed.resolve_left hle
      have hordered := h.ordered
      refine ⟨?_, h.hold_le, fun u hu => ?_, h.unlocked, h.replaced, h.chain⟩
      · show s.row.wts ≤ max s.row.rts commit_ts
        omega
      · rw [show s.row.owner = some u from hu] at hnone
        cases hnone
  · rw [hrow]
    exact h

theorem wf_update (h : s.WF) {value : α} (hstep : s.update t value = some s') : s'.WF := by
  unfold update at hstep
  split at hstep
  · rename_i hlocked
    obtain ⟨row, hrow, rfl⟩ := map_eq_some_iff.mp hstep
    obtain ⟨-, howner, rfl⟩ := Row.update_eq_some hrow
    obtain ⟨⟨rts, hrts, -⟩, hexceeds⟩ := h.holder t howner
    have hordered := h.ordered
    have hbefore : Before s.current ⟨(s.txns t).commit_ts, (s.txns t).commit_ts, s.holds⟩ :=
      hexceeds hlocked
    refine ⟨Nat.le_refl _, Nat.le_refl _, fun u hu => ?_, h.unlocked, ?_, ?_⟩
    · obtain rfl : t = u := by
        rw [show s.row.owner = some u from hu] at howner
        exact (some.inj howner).symm
      exact ⟨⟨rts, hrts, .inr ⟨rfl, hlocked, Nat.le_refl _⟩⟩, fun _ => .inr ⟨rfl, Nat.le_refl _⟩⟩
    · intro v hv
      rcases mem_cons.mp hv with rfl | hv
      · exact ⟨h.ordered, hbefore⟩
      · obtain ⟨hle, hv⟩ := h.replaced v hv
        exact ⟨hle, hv.trans hordered hbefore⟩
    · exact pairwise_cons.mpr ⟨fun v hv => (h.replaced v hv).2, h.chain⟩
  · cases hstep

theorem wf_unlock (h : s.WF) (hstep : s.unlock t = some s') : s'.WF := by
  obtain ⟨row, hrow, rfl⟩ := map_eq_some_iff.mp hstep
  obtain ⟨-, howner, rfl⟩ := Row.unlock_eq_some hrow
  refine ⟨h.ordered, h.hold_le, fun u hu => ?_, fun u _ => ?_, h.replaced, h.chain⟩
  · cases hu
  · by_cases hut : u = t
    · subst hut
      simp [Lease.onTxn]
    · have hne : s.row.owner ≠ some u := by
        rw [howner]
        exact fun he => hut (some.inj he).symm
      simpa [Lease.onTxn, update_of_ne hut] using h.unlocked u hne

theorem wf_step (h : s.WF) {l : LeaseLabel τ α} (hstep : s.step l = some s') : s'.WF := by
  cases l with
  | read t =>
    cases hstep
    exact wf_read h
  | write_lock t =>
    cases hstep
    exact wf_write_lock h
  | lock_write_set t =>
    cases hstep
    exact wf_lock_write_set h
  | raise t ts =>
    cases hstep
    exact wf_raise h ts
  | renew_lease t wts =>
    cases hstep
    exact wf_renew_lease h wts _
  | update t value => exact wf_update h hstep
  | unlock t => exact wf_unlock h hstep

omit [DecidableEq τ] in
theorem wf_start (value : α) (is_tuple_valid : Bool) (commit_ts : τ → Nat) :
    (start (.init value is_tuple_valid : Row τ α) commit_ts).WF :=
  ⟨Nat.le_refl _, Nat.le_refl _, nofun, fun _ _ => ⟨rfl, rfl⟩, forall_mem_nil _, .nil⟩

theorem wf_of_reach {value : α} {is_tuple_valid : Bool} {commit_ts : τ → Nat}
    (hreach : Reach step (fun _ _ => True) (start (.init value is_tuple_valid) commit_ts) s) :
    s.WF :=
  hreach.invariant (wf_start value is_tuple_valid commit_ts) fun _ _ _ h _ hstep => wf_step h hstep

-- In every interleaving wts ≤ rts; an update puts its version behind the rts of the one it
-- replaces, unless the same transaction has installed that one under the same hold of the
-- lock, and so the versions of different holds have disjoint intervals, in their order.
theorem versions_increase {value : α} {is_tuple_valid : Bool} {commit_ts : τ → Nat}
    (hreach : Reach step (fun _ _ => True) (start (.init value is_tuple_valid) commit_ts) s) :
    s.row.wts ≤ s.row.rts ∧
    (∀ t value s', s.step (.update t value) = some s' →
      s.row.rts < s'.row.wts ∨ (s.hold = s'.hold ∧ s.row.rts ≤ s'.row.wts)) ∧
    (∀ v ∈ s.versions, v.wts ≤ v.rts) ∧
    s.versions.Pairwise fun newer older =>
      older.rts < newer.wts ∨ (older.hold = newer.hold ∧ older.rts ≤ newer.wts) := by
  have h := wf_of_reach hreach
  refine ⟨h.ordered, fun t value s' hstep => ?_, fun v hv => ?_, ?_⟩
  · have h' := wf_step h hstep
    change s.update t value = some s' at hstep
    unfold update at hstep
    split at hstep
    · obtain ⟨row, -, rfl⟩ := map_eq_some_iff.mp hstep
      exact (h'.replaced s.current mem_cons_self).2
    · cases hstep
  · rcases mem_cons.mp hv with rfl | hv
    · exact h.ordered
    · exact (h.replaced v hv).1
  · exact pairwise_cons.mpr ⟨fun v hv => (h.replaced v hv).2, h.chain⟩

theorem versions_increase_with_renewal :
    ∃ s : Lease Nat Nat, Reach step (fun _ _ => True) (start (.init 0 true) fun _ => 0) s ∧
      s.versions = [⟨5, 5, 2⟩, ⟨1, 4, 1⟩, ⟨0, 0, 0⟩] ∧
      s.versions.Pairwise fun newer older =>
        older.rts < newer.wts ∨ (older.hold = newer.hold ∧ older.rts ≤ newer.wts) := by
  obtain ⟨s, hreach, hversions⟩ := exists_reach_of_run step (fun _ _ => True)
    (start (.init 0 true) fun _ => 0 : Lease Nat Nat)
    [.write_lock 1, .read 1, .lock_write_set 1, .renew_lease 3 0, .update 1 10, .unlock 1,
      .raise 2 4, .renew_lease 2 1, .write_lock 3, .lock_write_set 3, .renew_lease 2 1,
      .update 3 11]
    (fun s => s.versions = [⟨5, 5, 2⟩, ⟨1, 4, 1⟩, ⟨0, 0, 0⟩]) (by decide +kernel)
  exact ⟨s, hreach, hversions, (versions_increase hreach).2.2.2⟩

-- A write set that names the row twice: the second update has the commit_ts of the first.
theorem second_update_of_transaction :
    ∃ s s' : Lease Nat Nat, Reach step (fun _ _ => True) (start (.init 0 true) fun _ => 0) s ∧
      s.step (.update 1 11) = some s' ∧ ¬ s.row.rts < s'.row.wts := by
  obtain ⟨s, hreach, hupdate⟩ := exists_reach_of_run step (fun _ _ => True)
    (start (.init 0 true) fun _ => 0 : Lease Nat Nat)
    [.write_lock 1, .read 1, .lock_write_set 1, .lock_write_set 1, .update 1 10]
    (fun s => ((s.step (.update 1 11)).any fun s' => ¬ s.row.rts < s'.row.wts) = true)
    (by decide +kernel)
  cases hstep : s.step (.update 1 11) with
  | none =>
    rw [hstep] at hupdate
    cases hupdate
  | some s' =>
    rw [hstep] at hupdate
    exact ⟨s, s', hreach, hstep, of_decide_eq_true hupdate⟩

end Lease

end Tigon.Sundial
