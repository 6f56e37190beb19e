import Tigon.Common.CXLEBR.Reclamation

namespace Tigon.Common

open Function List Option Tigon.Library

namespace EBRState

variable {ebr : CXL_EBR} {O : Type} {c : EpochClock ebr.Thread} {s s' : EBRState ebr O}
  {t u : ebr.Thread} {o : O}

def RetiresUnlinked (s : EBRState ebr O) : EBRLabel ebr.Thread O → Prop
  | .retire t o => o ∈ s.unlinked t
  | _ => True

-- Nobody in a section is in a later epoch than the thread that unlinks.
def UnlinksInTime (s : EBRState ebr O) : EBRLabel ebr.Thread O → Prop
  | .unlink t _ => ∀ u ∈ ebr.slots, s.inSection u = true → s.local_epoch u ≤ s.local_epoch t
  | _ => True

instance [DecidableEq O] (s : EBRState ebr O) (e : EBRLabel ebr.Thread O) :
    Decidable (s.RetiresUnlinked e) := by
  cases e <;> unfold RetiresUnlinked <;> infer_instance

instance (s : EBRState ebr O) (e : EBRLabel ebr.Thread O) : Decidable (s.UnlinksInTime e) := by
  cases e <;> unfold UnlinksInTime <;> infer_instance

-- A reader stays in the epoch of the unlink or an earlier one, and an unlinked object is
-- retired in the list of that epoch.
structure GraceInv (s : EBRState ebr O) : Prop where
  reader : ∀ o u, s.readers o u = true →
    s.call u = .inside ∧ ∃ e, s.unlinkEpoch o = some e ∧ s.local_epoch u ≤ e
  unlinked : ∀ t, ∀ o ∈ s.unlinked t,
    s.call t = .inside ∧ s.unlinkEpoch o = some (s.local_epoch t)
  listed : ∀ t i, ∀ o ∈ (s.local_ebr_meta t).retired_objects i,
    ∃ e, s.unlinkEpoch o = some e ∧ i = CXL_EBR.listOf e ∧ e ≤ s.local_epoch t
  freed : ∀ o ∈ s.freed, s.unlinkEpoch o ≠ none ∧ ∀ u, s.readers o u = false

theorem inSection_eq_true : s.inSection t = true ↔ s.call t = .inside := by
  rw [inSection]
  cases s.call t <;> simp

-- A thread in a call reads nothing and has nothing left to retire, so its epoch may change.
theorem GraceInv.of_call (h : GraceInv s) (hcall : s.call t ≠ .inside)
    (hcalls : ∀ u, u ≠ t → s'.call u = s.call u)
    (hlocals : ∀ u, u ≠ t → s'.local_epoch u = s.local_epoch u)
    (hle : s.local_epoch t ≤ s'.local_epoch t)
    (hmeta : s'.local_ebr_meta = s.local_ebr_meta) (hfreed : s'.freed = s.freed)
    (hunlinked : s'.unlinked = s.unlinked) (hepoch : s'.unlinkEpoch = s.unlinkEpoch)
    (hreaders : s'.readers = s.readers) : GraceInv s' := by
  have hne : ∀ u, s.call u = .inside → u ≠ t := fun u hu heq => hcall (heq ▸ hu)
  refine ⟨fun o u hu => ?_, fun u o ho => ?_, fun u i o ho => ?_, ?_⟩
  · rw [hreaders] at hu
    obtain ⟨hinside, hread⟩ := h.reader o u hu
    rw [hcalls u (hne u hinside), hlocals u (hne u hinside), hepoch]
    exact ⟨hinside, hread⟩
  · rw [hunlinked] at ho
    obtain ⟨hinside, hunlink⟩ := h.unlinked u o ho
    rw [hcalls u (hne u hinside), hlocals u (hne u hinside), hepoch]
    exact ⟨hinside, hunlink⟩
  · rw [hmeta] at ho
    obtain ⟨e, he, hi, hlocal⟩ := h.listed u i o ho
    rw [hepoch]
    refine ⟨e, he, hi, le_trans hlocal ?_⟩
    by_cases hu : u = t
    · exact hu ▸ hle
    · exact le_of_eq (hlocals u hu).symm
  · rw [hfreed, hepoch, hreaders]
    exact h.freed

theorem le_sub_two_of_listOf {e g : Nat} (hg : 2 ≤ g) (he : e ≤ g)
    (hlist : CXL_EBR.listOf (g - 2) = CXL_EBR.listOf e) : e + 2 ≤ g := by
  have hmod : (g - 2) % 3 = e % 3 := congrArg Fin.val hlist
  omega

theorem GraceInv.readers_listAt {g : Nat} (h : GraceInv s) (hc : s.OnClock c)
    (hcall : s.call t = .reclaim g) (hg : 2 ≤ g) (ho : o ∈ s.listAt t (g - 2)) :
    s.readers o u = false := by
  obtain ⟨e, he, hlist, hlocal⟩ := h.listed t _ o ho
  have hlocal_eq : g = s.local_epoch t := (hc.knows_of_call hcall).1
  have hgrace : e + 2 ≤ c.global := by
    have hle := hc.local_le t
    have hold := le_sub_two_of_listOf hg (hlocal_eq ▸ hlocal) hlist
    rw [← hc.global]
    omega
  refine eq_false_of_ne_true fun hu => ?_
  obtain ⟨-, e', he', hread⟩ := h.reader o u hu
  obtain rfl : e' = e := some.inj (he'.symm.trans he)
  have hbehind := c.lt_reached_of_add_two_le hgrace u
  rw [← hc.reached] at hbehind
  omega

theorem GraceInv.free {g : Nat} (h : GraceInv s) (hc : s.OnClock c)
    (hcall : s.call t = .reclaim g) (hg : 2 ≤ g) :
    GraceInv ((s.free t (g - 2)).setCall t .inside) := by
  have hinside : ∀ u, s.call u = .inside →
      ((s.free t (g - 2)).setCall t .inside).call u = .inside := by
    intro u hu
    by_cases hut : u = t
    · subst hut
      exact update_self ..
    · exact (update_of_ne hut _ _).trans hu
  refine ⟨fun o u hu => ?_, fun u o ho => ?_, fun u i o ho => ?_, fun o ho => ?_⟩
  · obtain ⟨hin, hread⟩ := h.reader o u hu
    exact ⟨hinside u hin, hread⟩
  · obtain ⟨hin, hunlink⟩ := h.unlinked u o ho
    exact ⟨hinside u hin, hunlink⟩
  · have hlist : ((s.free t (g - 2)).local_ebr_meta u).retired_objects i =
        if u = t ∧ i = CXL_EBR.listOf (g - 2) then [] else
          (s.local_ebr_meta u).retired_objects i := by
      rw [local_ebr_meta_free, retired_objects_setListAt]
    change o ∈ ((s.free t (g - 2)).local_ebr_meta u).retired_objects i at ho
    rw [hlist] at ho
    split at ho
    · cases ho
    · exact h.listed u i o ho
  · rcases mem_append.mp ho with hold | hnew
    · exact h.freed o hold
    · obtain ⟨e, he, -⟩ := h.listed t _ o hnew
      exact ⟨ne_of_eq_of_ne he (some_ne_none e),
        fun u => h.readers_listAt hc hcall hg hnew⟩

theorem GraceInv.enter (h : GraceInv s) (t : ebr.Thread) :
    GraceInv (s.enter_critical_section t) := by
  have hcalls : ∀ u, u ≠ t → (s.enter_critical_section t).call u = s.call u :=
    fun u hu => update_of_ne hu _ _
  refine ⟨fun o u hu => ?_, fun u o ho => ?_, h.listed, fun o ho => ?_⟩
  · change update (s.readers o) t false u = true at hu
    by_cases hut : u = t
    · subst hut
      simp at hu
    · rw [update_of_ne hut] at hu
      rw [hcalls u hut]
      exact h.reader o u hu
  · change o ∈ update s.unlinked t [] u at ho
    by_cases hut : u = t
    · subst hut
      simp at ho
    · rw [update_of_ne hut] at ho
      rw [hcalls u hut]
      exact h.unlinked u o ho
  · obtain ⟨hunlink, hread⟩ := h.freed o ho
    refine ⟨hunlink, fun u => ?_⟩
    change update (s.readers o) t false u = false
    rw [update_apply, hread u, ite_self]

theorem GraceInv.next (h : GraceInv s) (hc : s.OnClock c) (hnext : s.next t = some s') :
    GraceInv s' := by
  have hcall : s.call t ≠ .inside := by
    intro hin
    have hbetween := between_of_next hnext
    rw [hin] at hbetween
    cases hbetween
  have hcalls : ∀ call u, u ≠ t → (s.setCall t call).call u = s.call u :=
    fun call u hu => update_of_ne hu _ _
  cases nextStep_of_next hnext with
  | moves call | compare_exchange l g =>
    exact h.of_call hcall (hcalls _) (fun _ _ => rfl) le_rfl rfl rfl rfl rfl rfl
  | @store g hstore =>
    refine h.of_call hcall (hcalls _) (fun u hu => update_of_ne hu _ _) ?_
      rfl rfl rfl rfl rfl
    have hg : g = s.local_epoch t + 1 := (hc.knows_of_call hstore).2.1
    have hlocal : (s.store_local_epoch t g).local_epoch t = g := update_self ..
    omega
  | free hreclaim hg => exact h.free hc hreclaim hg

variable [DecidableEq O]

theorem GraceInv.unlink (h : GraceInv s) (hok : s.UnlinksInTime (.unlink t o))
    (hstep : s.unlink t o = some s') : GraceInv s' := by
  obtain ⟨⟨hin, hnone⟩, hs'⟩ := ite_none_right_eq_some.mp hstep
  cases hs'
  have hkeep : ∀ p e, s.unlinkEpoch p = some e →
      update s.unlinkEpoch o (some (s.local_epoch t)) p = some e := by
    intro p e hp
    rw [update_of_ne, hp]
    rintro rfl
    rw [hnone] at hp
    cases hp
  refine ⟨fun p u hu => ?_, fun u p hp => ?_, fun u i p hp => ?_, fun p hp => ?_⟩
  · change update s.readers o s.inSection p u = true at hu
    by_cases hpo : p = o
    · subst hpo
      rw [update_self] at hu
      exact ⟨inSection_eq_true.mp hu, s.local_epoch t, update_self ..,
        hok u (CXL_EBR.mem_slots u) hu⟩
    · rw [update_of_ne hpo] at hu
      obtain ⟨hinside, e, he, hle⟩ := h.reader p u hu
      exact ⟨hinside, e, hkeep p e he, hle⟩
  · change p ∈ update s.unlinked t (o :: s.unlinked t) u at hp
    by_cases hut : u = t
    · subst hut
      rw [update_self] at hp
      rcases mem_cons.mp hp with rfl | hp
      · exact ⟨inSection_eq_true.mp hin, update_self ..⟩
      · obtain ⟨hinside, hunlink⟩ := h.unlinked u p hp
        exact ⟨hinside, hkeep p _ hunlink⟩
    · rw [update_of_ne hut] at hp
      obtain ⟨hinside, hunlink⟩ := h.unlinked u p hp
      exact ⟨hinside, hkeep p _ hunlink⟩
  · obtain ⟨e, he, hi, hle⟩ := h.listed u i p hp
    exact ⟨e, hkeep p e he, hi, hle⟩
  · obtain ⟨hunlink, hread⟩ := h.freed p hp
    have hpo : p ≠ o := fun heq => hunlink (heq ▸ hnone)
    change update s.unlinkEpoch o _ p ≠ none ∧
      ∀ u, update s.readers o s.inSection p u = false
    rw [update_of_ne hpo, update_of_ne hpo]
    exact ⟨hunlink, hread⟩

theorem GraceInv.retire (h : GraceInv s) (hok : s.RetiresUnlinked (.retire t o))
    (hstep : s.retire t o = some s') : GraceInv s' := by
  obtain ⟨-, hs'⟩ := ite_none_right_eq_some.mp hstep
  cases hs'
  refine ⟨h.reader, fun u p hp => ?_, fun u i p hp => ?_, h.freed⟩
  · change p ∈ update s.unlinked t ((s.unlinked t).erase o) u at hp
    by_cases hut : u = t
    · subst hut
      rw [update_self] at hp
      exact h.unlinked u p (mem_of_mem_erase hp)
    · rw [update_of_ne hut] at hp
      exact h.unlinked u p hp
  · change p ∈ ((s.setListAt t (s.local_epoch t) _).local_ebr_meta u).retired_objects i at hp
    rw [retired_objects_setListAt] at hp
    split at hp
    · rename_i hui
      obtain ⟨rfl, rfl⟩ := hui
      rcases mem_append.mp hp with hp | hp
      · exact h.listed u _ p hp
      · obtain rfl := mem_singleton.mp hp
        exact ⟨_, (h.unlinked u p hok).2, rfl, le_rfl⟩
    · exact h.listed u i p hp

theorem graceInv_step {e : EBRLabel ebr.Thread O} (h : GraceInv s) (hc : s.OnClock c)
    (hok : s.RetiresUnlinked e ∧ s.UnlinksInTime e) (hstep : s.step e = some s') :
    GraceInv s' := by
  cases e with
  | enter t =>
    obtain ⟨-, hs'⟩ := ite_none_right_eq_some.mp hstep
    cases hs'
    exact h.enter t
  | next t => exact h.next hc hstep
  | unlink t o => exact h.unlink hok.2 hstep
  | retire t o => exact h.retire hok.1 hstep

omit [DecidableEq O] in
theorem graceInv_start : GraceInv (start : EBRState ebr O) := by
  refine ⟨fun o u hu => ?_, fun t o ho => ?_, fun t i o ho => ?_, fun o ho => ?_⟩
  · cases hu
  · cases ho
  · cases ho
  · cases ho

-- As long as nobody in a section is in a later epoch than a thread that unlinks an object,
-- the object is freed only when everyone who was in a section at the unlink has left it.
theorem freed_only_without_readers
    (hreach : Reach step (fun s e => s.RetiresUnlinked e ∧ s.UnlinksInTime e) start s)
    (ho : o ∈ s.freed) (u : ebr.Thread) : s.readers o u = false := by
  have hinv : GraceInv s ∧ ∃ c, s.OnClock c := by
    refine hreach.invariant (P := fun s => GraceInv s ∧ ∃ c, s.OnClock c)
      ⟨graceInv_start, _, onClock_start⟩ ?_
    intro s e s' ⟨hgrace, c, hc⟩ hok hstep
    obtain ⟨c', -, hc'⟩ := hc.follows_step hstep
    exact ⟨graceInv_step hgrace hc hok hstep, c', hc'⟩
  exact (hinv.1.freed o ho).2 u

section Example

def unlinking (t : twoHosts.Thread) (first : Nat) : List (EBRLabel twoHosts.Thread Nat) :=
  (List.range CXL_EBR.epoch_advance_threshold).flatMap fun i =>
    [.unlink t (first + i), .retire t (first + i)]

-- Everything is unlinked in the global epoch, and object 100 is freed after the other
-- thread has left the section in which it could read it.
theorem freed_without_readers_twoHosts :
    ∃ s : EBRState twoHosts Nat,
      Reach step (fun s e => s.RetiresUnlinked e ∧ s.UnlinksInTime e) start s ∧
      100 ∈ s.freed ∧ s.readers 100 onFirst = false := by
  obtain ⟨s, hreach, hfreed⟩ := exists_reach_of_run step
    (fun s e => s.RetiresUnlinked e ∧ s.UnlinksInTime e) start
    (entering onFirst 3 ++ entering onSecond 3 ++ unlinking onSecond 0 ++ entering onSecond 7 ++
      entering onFirst 4 ++ unlinking onSecond 100 ++ entering onSecond 7 ++
      entering onFirst 4 ++ unlinking onSecond 200 ++ entering onSecond 7)
    (fun s : EBRState twoHosts Nat => 100 ∈ s.freed) (by decide +kernel)
  exact ⟨s, hreach, hfreed, freed_only_without_readers hreach hfreed onFirst⟩

-- The second thread is in a section of epoch 2 when the first, still in epoch 1, unlinks
-- object 300. The first then takes the global epoch to 3 and frees the object, and the
-- second has not left its section.
theorem freed_while_read :
    ∃ s : EBRState twoHosts Nat, Reach step RetiresUnlinked start s ∧
      300 ∈ s.freed ∧ s.readers 300 onSecond = true :=
  exists_reach_of_run _ _ _
    (entering onFirst 3 ++ entering onSecond 3 ++ unlinking onSecond 0 ++ entering onSecond 7 ++
      entering onFirst 4 ++ unlinking onSecond 100 ++ entering onSecond 7 ++
      [.unlink onFirst 300, .retire onFirst 300] ++ entering onFirst 4 ++
      unlinking onFirst 200 ++ entering onFirst 7) _ (by decide +kernel)

end Example

end EBRState

end Tigon.Common
