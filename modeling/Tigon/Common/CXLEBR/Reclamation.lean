import Tigon.Common.CXLEBR.Epochs
import Tigon.Library.PointUpdate

namespace Tigon.Common

open Option Multiset Tigon.Library

namespace EBRState

variable {ebr : CXL_EBR} {O : Type} {c : EpochClock ebr.Thread} {s s' : EBRState ebr O}
  {t : ebr.Thread}

-- What a step of a call can do. Only the last kind moves objects.
inductive NextStep (s : EBRState ebr O) (t : ebr.Thread) : EBRState ebr O → Prop
  | moves (call : EBRCall ebr.Thread) : NextStep s t (s.setCall t call)
  | compare_exchange (l g : Nat) : NextStep s t (s.compare_exchange t l g)
  | store {g : Nat} (hcall : s.call t = .store_local_epoch g) :
      NextStep s t (s.store_local_epoch t g)
  | free {g : Nat} (hcall : s.call t = .reclaim g) (hg : 2 ≤ g) :
      NextStep s t ((s.free t (g - 2)).setCall t .inside)

theorem nextStep_of_next (h : s.next t = some s') : NextStep s t s' := by
  cases hc : s.call t with
  | outside | inside => simp [next, hc] at h
  | load_global_epoch l =>
    simp only [next, hc, load_global_epoch] at h
    split_ifs at h <;> cases h <;> exact .moves _
  | scan l g advance rest =>
    cases rest with
    | nil => simp [next, hc, scan] at h
    | cons u rest =>
      simp only [next, hc, scan] at h
      split_ifs at h <;> cases h <;> exact .moves _
  | compare_exchange l g =>
    simp only [next, hc, some.injEq] at h
    exact h ▸ .compare_exchange l g
  | reload_global_epoch l =>
    simp only [next, hc, reload_global_epoch] at h
    split_ifs at h <;> cases h <;> exact .moves _
  | store_local_epoch g =>
    simp only [next, hc, some.injEq] at h
    exact h ▸ .store hc
  | reclaim g =>
    simp only [next, hc, reclaim] at h
    split_ifs at h with hnew
    · cases h
      exact .free hc hnew.1
    · cases h
      exact .moves _

theorem local_ebr_meta_free (s : EBRState ebr O) (t : ebr.Thread) (epoch : Nat) (u : ebr.Thread) :
    ((s.free t epoch).local_ebr_meta u).retired_objects =
      ((s.setListAt t epoch []).local_ebr_meta u).retired_objects := by
  by_cases hu : u = t
  · subst hu
    simp [free]
  · simp [free, hu]

def garbage (s : EBRState ebr O) : Multiset O :=
  ∑ p : ebr.Thread × Fin CXL_EBR.max_epoch,
    ((s.local_ebr_meta p.1).retired_objects p.2 : Multiset O)

theorem retired_objects_setListAt (s : EBRState ebr O) (t : ebr.Thread) (epoch : Nat) (l : List O)
    (u : ebr.Thread) (i : Fin CXL_EBR.max_epoch) :
    ((s.setListAt t epoch l).local_ebr_meta u).retired_objects i =
      if u = t ∧ i = CXL_EBR.listOf epoch then l else (s.local_ebr_meta u).retired_objects i := by
  by_cases hu : u = t
  · subst hu
    simp [setListAt, Function.update_apply]
  · simp [setListAt, hu]

theorem garbage_setListAt (s : EBRState ebr O) (t : ebr.Thread) (epoch : Nat) (l : List O) :
    (s.setListAt t epoch l).garbage + (s.listAt t epoch : Multiset O) =
      s.garbage + (l : Multiset O) := by
  have hlists : (fun p : ebr.Thread × Fin CXL_EBR.max_epoch =>
      (((s.setListAt t epoch l).local_ebr_meta p.1).retired_objects p.2 : Multiset O)) =
      Function.update (fun p => ((s.local_ebr_meta p.1).retired_objects p.2 : Multiset O))
        (t, CXL_EBR.listOf epoch) (l : Multiset O) := by
    funext p
    rw [retired_objects_setListAt, Function.update_apply]
    by_cases hp : p = (t, CXL_EBR.listOf epoch)
    · subst hp
      simp
    · rw [if_neg hp, if_neg]
      exact fun h => hp (Prod.ext h.1 h.2)
  rw [garbage, hlists]
  exact sum_update_add _ _ _

-- Every retired object is freed or waits in a list, once for each time it was retired.
def Accounted (s : EBRState ebr O) : Prop :=
  (s.freed : Multiset O) + s.garbage = (s.retired : Multiset O)

theorem Accounted.add_retired_object (h : Accounted s) (t : ebr.Thread) (o : O) :
    ((s.add_retired_object t o).freed : Multiset O) + (s.add_retired_object t o).garbage =
      ((o :: s.retired : List O) : Multiset O) := by
  have hlist := garbage_setListAt s t (s.local_epoch t) (s.listAt t (s.local_epoch t) ++ [o])
  rw [← coe_add, ← add_assoc, add_right_comm] at hlist
  have hgarbage : (s.add_retired_object t o).garbage = s.garbage + {o} := add_right_cancel hlist
  rw [hgarbage, ← cons_coe, ← singleton_add, ← h, ← add_assoc]
  exact add_comm _ _

theorem Accounted.free (h : Accounted s) (t : ebr.Thread) (epoch : Nat) :
    Accounted (s.free t epoch) := by
  have hlist := garbage_setListAt s t epoch []
  have hgarbage : (s.free t epoch).garbage = (s.setListAt t epoch []).garbage := by
    simp only [garbage, local_ebr_meta_free]
  have hfreed : (s.free t epoch).freed = s.freed ++ s.listAt t epoch := rfl
  rw [Accounted, hgarbage, hfreed, ← coe_add, add_assoc,
    add_comm (s.listAt t epoch : Multiset O), hlist, coe_nil, add_zero]
  exact h

section

variable [DecidableEq O]

theorem accounted_step {e : EBRLabel ebr.Thread O} (h : Accounted s) (hstep : s.step e = some s') :
    Accounted s' := by
  cases e with
  | enter t | unlink t o =>
    obtain ⟨-, hs'⟩ := ite_none_right_eq_some.mp hstep
    cases hs'
    exact h
  | next t =>
    cases nextStep_of_next hstep with
    | moves | compare_exchange | store => exact h
    | free => exact h.free t _
  | retire t o =>
    obtain ⟨-, hs'⟩ := ite_none_right_eq_some.mp hstep
    cases hs'
    exact h.add_retired_object t o

theorem accounted_of_reach {ok : EBRState ebr O → EBRLabel ebr.Thread O → Prop}
    (hreach : Reach step ok start s) : Accounted s := by
  refine hreach.invariant (P := Accounted) ?_ fun _ _ _ h _ hstep => accounted_step h hstep
  simp [Accounted, garbage, start]

-- For any number of threads and hosts and in any order of their steps: no thread is more
-- than one epoch behind, no call is stopped by a CHECK, and nothing is freed more often
-- than it was retired.
theorem local_epochs_follow_global_epoch (hreach : Reach step (fun _ _ => True) start s) :
    (∀ t, s.local_epoch t = s.global_epoch ∨ s.local_epoch t + 1 = s.global_epoch) ∧
      (∀ t, (s.call t).between = false → (s.step (.next t)).isSome = true) ∧
      ∀ o, s.freed.count o ≤ s.retired.count o := by
  obtain ⟨c, hc⟩ := exists_onClock hreach
  refine ⟨fun t => ?_, fun t ht => ?_, fun o => ?_⟩
  · rw [hc.reached, hc.global]
    exact c.reached_eq_or t
  · obtain ⟨s', hs', -⟩ := hc.follows_next ht
    exact isSome_iff_exists.mpr ⟨s', hs'⟩
  · have hall := accounted_of_reach hreach
    have hle : (s.freed : Multiset O) ≤ (s.retired : Multiset O) := by
      rw [← hall]
      exact le_add_right _ _
    rw [← coe_count, ← coe_count]
    exact count_le_of_le o hle

end

section Example

def twoHosts : CXL_EBR := ⟨2, 1⟩

def onFirst : twoHosts.Thread := ((0 : Fin 2), (0 : Fin 1))

def onSecond : twoHosts.Thread := ((1 : Fin 2), (0 : Fin 1))

def entering (t : twoHosts.Thread) (n : Nat) : List (EBRLabel twoHosts.Thread Nat) :=
  .enter t :: List.replicate n (.next t)

def retiring (t : twoHosts.Thread) (first : Nat) : List (EBRLabel twoHosts.Thread Nat) :=
  (List.range CXL_EBR.epoch_advance_threshold).map fun i => .retire t (first + i)

theorem local_epochs_follow_global_epoch_twoHosts :
    ∃ s : EBRState twoHosts Nat, Reach step (fun _ _ => True) start s ∧ 100 ∈ s.freed ∧
      s.global_epoch = 3 ∧
      (s.local_epoch onFirst = s.global_epoch ∨ s.local_epoch onFirst + 1 = s.global_epoch) ∧
      s.freed.count 100 ≤ s.retired.count 100 := by
  obtain ⟨s, hreach, hfreed, hglobal⟩ := exists_reach_of_run step (fun _ _ => True) start
    (retiring onSecond 0 ++ entering onSecond 7 ++ entering onFirst 4 ++
      retiring onSecond 100 ++ entering onSecond 7 ++ entering onFirst 4 ++
      retiring onSecond 200 ++ entering onSecond 7)
    (fun s : EBRState twoHosts Nat => 100 ∈ s.freed ∧ s.global_epoch = 3) (by decide +kernel)
  obtain ⟨hepochs, -, hcount⟩ := local_epochs_follow_global_epoch hreach
  exact ⟨s, hreach, hfreed, hglobal, hepochs onFirst, hcount 100⟩

end Example

end EBRState

end Tigon.Common
