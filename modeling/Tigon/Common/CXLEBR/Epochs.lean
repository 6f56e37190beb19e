import Mathlib.Algebra.BigOperators.Group.Finset.Basic
import Mathlib.Data.Fintype.Prod
import Tigon.Common.CXLEBR
import Tigon.Library.EpochClock
import Tigon.Library.Transition

namespace Tigon.Common

open Function List Tigon.Library

structure EBREpochs (T : Type) where
  global_epoch : Nat
  local_epoch : T → Nat
  last_freed_epoch : T → Nat

namespace EBREpochs

variable {T : Type} {v v' : EBREpochs T} {t u : T}

-- What a thread can rely on at each point of its call. Between calls it has freed the
-- epochs up to the one two before its own.
def Knows (v : EBREpochs T) (t : T) : EBRCall T → Prop
  | .outside | .inside => v.last_freed_epoch t = v.local_epoch t - 2
  | .load_global_epoch l | .reload_global_epoch l =>
    v.last_freed_epoch t = v.local_epoch t - 2 ∧ l = v.local_epoch t
  | .scan l g advance rest => v.last_freed_epoch t = v.local_epoch t - 2 ∧ l = v.local_epoch t ∧
      g = l ∧ rest ≠ [] ∧ (advance = true → ∀ u, u ∉ rest → g ≤ v.local_epoch u)
  | .compare_exchange l g => v.last_freed_epoch t = v.local_epoch t - 2 ∧ l = v.local_epoch t ∧
      g = l ∧ ∀ u, g ≤ v.local_epoch u
  | .store_local_epoch g => v.last_freed_epoch t = v.local_epoch t - 2 ∧
      g = v.local_epoch t + 1 ∧ g ≤ v.global_epoch
  | .reclaim g => g = v.local_epoch t ∧
      (v.last_freed_epoch t = g - 2 ∨ v.last_freed_epoch t = g - 3)

theorem Knows.of_le {call : EBRCall T} (h : v.Knows t call)
    (hlocal : v'.local_epoch t = v.local_epoch t)
    (hlast : v'.last_freed_epoch t = v.last_freed_epoch t)
    (hglobal : v.global_epoch ≤ v'.global_epoch)
    (hle : ∀ u, v.local_epoch u ≤ v'.local_epoch u) : v'.Knows t call := by
  cases call with
  | outside | inside | load_global_epoch l | reload_global_epoch l | reclaim g =>
    rw [Knows, hlast, hlocal]
    exact h
  | scan l g advance rest =>
    obtain ⟨hfreed, hl, hg, hne, hscan⟩ := h
    rw [Knows, hlast, hlocal]
    exact ⟨hfreed, hl, hg, hne, fun ha u hu => le_trans (hscan ha u hu) (hle u)⟩
  | compare_exchange l g =>
    obtain ⟨hfreed, hl, hg, hall⟩ := h
    rw [Knows, hlast, hlocal]
    exact ⟨hfreed, hl, hg, fun u => le_trans (hall u) (hle u)⟩
  | store_local_epoch g =>
    obtain ⟨hfreed, hg, hbound⟩ := h
    rw [Knows, hlast, hlocal]
    exact ⟨hfreed, hg, le_trans hbound hglobal⟩

theorem knows_scanFrom {l g : Nat} {advance : Bool} {rest : List T}
    (hfreed : v.last_freed_epoch t = v.local_epoch t - 2) (hl : l = v.local_epoch t)
    (hg : g = l) (hscan : advance = true → ∀ u, u ∉ rest → g ≤ v.local_epoch u) :
    v.Knows t (.scanFrom l g advance rest) := by
  cases rest with
  | cons u rest => exact ⟨hfreed, hl, hg, cons_ne_nil u rest, hscan⟩
  | nil =>
    cases advance with
    | true => exact ⟨hfreed, hl, hg, fun u => hscan rfl u not_mem_nil⟩
    | false => exact ⟨hfreed, hl⟩

end EBREpochs

theorem CXL_EBR.mem_slots {ebr : CXL_EBR} (t : ebr.Thread) : t ∈ ebr.slots :=
  mem_product.mpr ⟨mem_finRange t.1, mem_finRange t.2⟩

namespace EBRState

variable {ebr : CXL_EBR} {O : Type}

def epochs (s : EBRState ebr O) : EBREpochs ebr.Thread where
  global_epoch := s.global_epoch
  local_epoch := s.local_epoch
  last_freed_epoch := fun t => (s.local_ebr_meta t).last_freed_epoch

structure OnClock (c : EpochClock ebr.Thread) (s : EBRState ebr O) : Prop where
  global : s.global_epoch = c.global
  reached : s.local_epoch = c.reached
  knows : ∀ t, s.epochs.Knows t (s.call t)

def Follows (c : EpochClock ebr.Thread) (s : EBRState ebr O) : Prop :=
  ∃ c', c.Step c' ∧ s.OnClock c'

variable {c c' : EpochClock ebr.Thread} {s s' : EBRState ebr O} {t : ebr.Thread}
  {call : EBRCall ebr.Thread}

theorem OnClock.of_step (h : s.OnClock c) (hclock : c.Step c')
    (hglobal : s'.global_epoch = c'.global) (hreached : s'.local_epoch = c'.reached)
    (hcall : s'.call = update s.call t call)
    (hothers : ∀ u, u ≠ t → s'.local_epoch u = s.local_epoch u ∧
      (s'.local_ebr_meta u).last_freed_epoch = (s.local_ebr_meta u).last_freed_epoch)
    (hknows : s'.epochs.Knows t call) : s'.Follows c := by
  refine ⟨c', hclock, hglobal, hreached, fun u => ?_⟩
  rw [hcall]
  by_cases hu : u = t
  · subst hu
    rw [update_self]
    exact hknows
  · rw [update_of_ne hu]
    obtain ⟨hlocal, hlast⟩ := hothers u hu
    refine (h.knows u).of_le hlocal hlast ?_ fun w => ?_
    · change s.global_epoch ≤ s'.global_epoch
      rw [h.global, hglobal]
      exact hclock.global_le
    · change s.local_epoch w ≤ s'.local_epoch w
      rw [h.reached, hreached]
      exact hclock.reached_le w

theorem OnClock.moves (h : s.OnClock c) (hepochs : s'.epochs = s.epochs)
    (hcall : s'.call = update s.call t call) (hknows : s.epochs.Knows t call) :
    s'.Follows c := by
  have hglobal : s'.global_epoch = s.global_epoch := congrArg EBREpochs.global_epoch hepochs
  have hlocal : s'.local_epoch = s.local_epoch := congrArg EBREpochs.local_epoch hepochs
  have hlast : s'.epochs.last_freed_epoch = s.epochs.last_freed_epoch := by rw [hepochs]
  exact h.of_step .stay (hglobal.trans h.global) (hlocal.trans h.reached) hcall
    (fun u _ => ⟨congrFun hlocal u, congrFun hlast u⟩) (hepochs ▸ hknows)

theorem OnClock.setCall (h : s.OnClock c) (hknows : s.epochs.Knows t call) :
    (s.setCall t call).Follows c :=
  h.moves rfl rfl hknows

theorem OnClock.local_le (h : s.OnClock c) (t : ebr.Thread) : s.local_epoch t ≤ s.global_epoch := by
  rw [h.global, h.reached]
  exact c.reached_le t

theorem OnClock.global_le (h : s.OnClock c) (t : ebr.Thread) :
    s.global_epoch ≤ s.local_epoch t + 1 := by
  rw [h.global, h.reached]
  exact c.global_le t

theorem OnClock.knows_of_call (h : s.OnClock c) (hcall : s.call t = call) : s.epochs.Knows t call :=
  hcall ▸ h.knows t

variable {l : Nat}

theorem OnClock.follows_load_global_epoch (h : s.OnClock c)
    (hcall : s.call t = .load_global_epoch l) :
    ∃ s', s.load_global_epoch t l = some s' ∧ s'.Follows c := by
  obtain ⟨hfreed, hl⟩ := h.knows_of_call hcall
  have hle := h.local_le t
  rw [load_global_epoch]
  by_cases hg : s.global_epoch = l
  · rw [if_pos hg]
    by_cases hfull : CXL_EBR.epoch_advance_threshold ≤ (s.listAt t l).length
    · rw [if_pos hfull]
      refine ⟨_, rfl, h.setCall (EBREpochs.knows_scanFrom hfreed hl hg ?_)⟩
      exact fun _ u hu => absurd (CXL_EBR.mem_slots u) hu
    · rw [if_neg hfull]
      exact ⟨_, rfl, h.setCall ⟨hfreed, hl⟩⟩
  · -- the first CHECK: a local epoch is never ahead
    have hlt : l < s.global_epoch := by
      change l = s.local_epoch t at hl
      omega
    rw [if_neg hg, if_pos hlt]
    exact ⟨_, rfl, h.setCall ⟨hfreed, hl⟩⟩

variable {g : Nat}

theorem OnClock.follows_scan {advance : Bool} {rest : List ebr.Thread} (h : s.OnClock c)
    (hcall : s.call t = .scan l g advance rest) :
    ∃ s', s.scan t l g advance rest = some s' ∧ s'.Follows c := by
  obtain ⟨hfreed, hl, hg, hne, hscan⟩ := h.knows_of_call hcall
  cases rest with
  | nil => exact absurd rfl hne
  | cons u rest =>
    rw [scan]
    by_cases hlag : s.local_epoch u < g
    · rw [if_pos hlag]
      refine ⟨_, rfl, h.setCall (EBREpochs.knows_scanFrom hfreed hl hg ?_)⟩
      exact fun ha => absurd ha (by decide)
    · rw [if_neg hlag]
      refine ⟨_, rfl, h.setCall (EBREpochs.knows_scanFrom hfreed hl hg fun ha w hw => ?_)⟩
      by_cases hwu : w = u
      · subst hwu
        exact Nat.le_of_not_lt hlag
      · exact hscan ha w (by simp [hwu, hw])

theorem OnClock.follows_compare_exchange (h : s.OnClock c)
    (hcall : s.call t = .compare_exchange l g) : (s.compare_exchange t l g).Follows c := by
  obtain ⟨hfreed, hl, hg, hall⟩ := h.knows_of_call hcall
  by_cases hcas : s.global_epoch = g
  · have htick : ∀ u, c.global ≤ c.reached u := by
      intro u
      rw [← h.global, ← h.reached, hcas]
      exact hall u
    have hnext : (s.compare_exchange t l g).global_epoch = c.global + 1 := by
      change (if s.global_epoch = g then g + 1 else s.global_epoch) = c.global + 1
      rw [if_pos hcas, ← h.global, hcas]
    exact h.of_step (.tick htick) hnext h.reached rfl (fun _ _ => ⟨rfl, rfl⟩) ⟨hfreed, hl⟩
  · refine h.moves ?_ rfl (⟨hfreed, hl⟩ : s.epochs.Knows t (.reload_global_epoch l))
    change (⟨if s.global_epoch = g then g + 1 else s.global_epoch, _, _⟩ : EBREpochs _) = _
    rw [if_neg hcas]
    rfl

theorem OnClock.follows_reload_global_epoch (h : s.OnClock c)
    (hcall : s.call t = .reload_global_epoch l) :
    ∃ s', s.reload_global_epoch t l = some s' ∧ s'.Follows c := by
  obtain ⟨hfreed, hl⟩ := h.knows_of_call hcall
  change l = s.local_epoch t at hl
  have hle := h.local_le t
  have hlag := h.global_le t
  rw [reload_global_epoch]
  by_cases hlt : l < s.global_epoch
  · -- the second CHECK: a local epoch is at most one behind
    rw [if_pos hlt, if_pos (by omega)]
    have hnext : s.global_epoch = s.local_epoch t + 1 := by omega
    exact ⟨_, rfl, h.setCall ⟨hfreed, hnext, le_rfl⟩⟩
  · rw [if_neg hlt]
    have hsame : s.global_epoch = s.local_epoch t := by omega
    exact ⟨_, rfl, h.setCall ⟨hsame, .inl (hsame ▸ hfreed)⟩⟩

theorem OnClock.follows_store_local_epoch (h : s.OnClock c)
    (hcall : s.call t = .store_local_epoch g) : (s.store_local_epoch t g).Follows c := by
  obtain ⟨hfreed, hg, hbound⟩ := h.knows_of_call hcall
  change g = s.local_epoch t + 1 at hg
  change g ≤ s.global_epoch at hbound
  have hlag := h.global_le t
  have hglobal : g = c.global := by
    rw [← h.global]
    omega
  refine h.of_step (.catchUp t) h.global ?_ rfl (fun u hu => ⟨?_, rfl⟩) ?_
  · change update s.local_epoch t g = update c.reached t c.global
    rw [h.reached, hglobal]
  · exact update_of_ne hu _ _
  · refine ⟨(update_self t g s.local_epoch).symm, .inr ?_⟩
    change (s.local_ebr_meta t).last_freed_epoch = g - 3
    change (s.local_ebr_meta t).last_freed_epoch = s.local_epoch t - 2 at hfreed
    omega

theorem last_freed_epoch_free (epoch : Nat) (u : ebr.Thread) :
    ((s.free t epoch).local_ebr_meta u).last_freed_epoch =
      if u = t then epoch else (s.local_ebr_meta u).last_freed_epoch := by
  by_cases hu : u = t
  · subst hu
    simp [free]
  · simp [free, setListAt, hu]

theorem OnClock.follows_reclaim (h : s.OnClock c) (hcall : s.call t = .reclaim g) :
    ∃ s', s.reclaim t g = some s' ∧ s'.Follows c := by
  obtain ⟨hg, hfreed⟩ := h.knows_of_call hcall
  change g = s.local_epoch t at hg
  change (s.local_ebr_meta t).last_freed_epoch = g - 2 ∨
    (s.local_ebr_meta t).last_freed_epoch = g - 3 at hfreed
  rw [reclaim]
  by_cases hnew : 2 ≤ g ∧ (s.local_ebr_meta t).last_freed_epoch < g - 2
  · -- the third CHECK: no epoch is left out
    have hsucc : g - 2 = (s.local_ebr_meta t).last_freed_epoch + 1 := by omega
    rw [if_pos hnew, if_pos hsucc]
    refine ⟨_, rfl, h.of_step .stay h.global h.reached rfl (fun u hu => ⟨rfl, ?_⟩) ?_⟩
    · exact (last_freed_epoch_free (g - 2) u).trans (if_neg hu)
    · refine ((last_freed_epoch_free (g - 2) t).trans (if_pos rfl)).trans ?_
      change g - 2 = s.local_epoch t - 2
      rw [hg]
  · rw [if_neg hnew]
    refine ⟨_, rfl, h.setCall ?_⟩
    change (s.local_ebr_meta t).last_freed_epoch = s.local_epoch t - 2
    omega

theorem OnClock.follows_next (h : s.OnClock c) (hcall : (s.call t).between = false) :
    ∃ s', s.next t = some s' ∧ s'.Follows c := by
  rw [next]
  cases hc : s.call t with
  | outside | inside => simp [hc, EBRCall.between] at hcall
  | load_global_epoch l => exact h.follows_load_global_epoch hc
  | scan l g advance rest => exact h.follows_scan hc
  | compare_exchange l g => exact ⟨_, rfl, h.follows_compare_exchange hc⟩
  | reload_global_epoch l => exact h.follows_reload_global_epoch hc
  | store_local_epoch g => exact ⟨_, rfl, h.follows_store_local_epoch hc⟩
  | reclaim g => exact h.follows_reclaim hc

theorem between_of_next (h : s.next t = some s') : (s.call t).between = false := by
  cases hc : s.call t with
  | outside | inside => simp [next, hc] at h
  | _ => rfl

theorem OnClock.last_freed_epoch_eq (h : s.OnClock c) (hcall : (s.call t).between = true) :
    s.epochs.last_freed_epoch t = s.epochs.local_epoch t - 2 := by
  cases hc : s.call t with
  | outside | inside => exact h.knows_of_call hc
  | _ => simp [hc, EBRCall.between] at hcall

theorem epochs_add_retired_object (s : EBRState ebr O) (t : ebr.Thread) (o : O) :
    (s.add_retired_object t o).epochs = s.epochs := by
  have hlast : (s.add_retired_object t o).epochs.last_freed_epoch = s.epochs.last_freed_epoch := by
    funext u
    by_cases hu : u = t
    · subst hu
      simp [add_retired_object, setListAt, epochs]
    · simp [add_retired_object, setListAt, epochs, hu]
  rw [epochs, epochs]
  exact congrArg (EBREpochs.mk s.global_epoch s.local_epoch) hlast

theorem onClock_start : (start : EBRState ebr O).OnClock EpochClock.start :=
  ⟨rfl, rfl, fun _ => rfl⟩

section

variable [DecidableEq O]

theorem OnClock.follows_step {e : EBRLabel ebr.Thread O} (h : s.OnClock c)
    (hstep : s.step e = some s') : s'.Follows c := by
  cases e with
  | enter t =>
    obtain ⟨hbetween, hs'⟩ := Option.ite_none_right_eq_some.mp hstep
    cases hs'
    exact h.moves rfl rfl ⟨h.last_freed_epoch_eq hbetween, rfl⟩
  | next t =>
    obtain ⟨s'', hs'', hfollows⟩ := h.follows_next (between_of_next hstep)
    rw [show s.next t = some s' from hstep] at hs''
    cases hs''
    exact hfollows
  | unlink t o =>
    obtain ⟨-, hs'⟩ := Option.ite_none_right_eq_some.mp hstep
    cases hs'
    exact h.moves rfl (update_eq_self t s.call).symm (h.knows t)
  | retire t o =>
    obtain ⟨-, hs'⟩ := Option.ite_none_right_eq_some.mp hstep
    cases hs'
    exact h.moves (epochs_add_retired_object s t o) (update_eq_self t s.call).symm
      (h.knows t)

theorem exists_onClock {ok : EBRState ebr O → EBRLabel ebr.Thread O → Prop}
    (hreach : Reach step ok start s) : ∃ c, s.OnClock c := by
  refine hreach.invariant (P := fun s => ∃ c, s.OnClock c) ⟨_, onClock_start⟩ ?_
  intro s e s' ⟨c, hc⟩ _ hstep
  obtain ⟨c', -, hc'⟩ := hc.follows_step hstep
  exact ⟨c', hc'⟩

end

end EBRState

end Tigon.Common
