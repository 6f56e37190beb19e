import Tigon.Library.NextKeyLocking
import Tigon.TwoPLPasha.InsertSystem
import Tigon.TwoPLPasha.Table.KeyReal

namespace Tigon.TwoPLPasha

open Function Option Table PendingInsert Tigon.Library Guards

namespace Table

variable {K α : Type} [LinearOrder K] {ctx : Context} {host : Host} {t t' : Table K α} {key : K}

def lock (t : Table K α) (k : K) : LockView := (t.info k).lock

theorem lock_commitInsert (ht : t.WellFormed) (h : t.commitInsert host key = some t') (k : K) :
    t'.lock k = t.lock k := by
  obtain ⟨-, hinfo, -⟩ := commitInsert_spec ht h
  rw [lock, hinfo]
  rfl

theorem lock_moveIn {alloc : Allocation α} {inc : Bool} (ht : t.WellFormed)
    (h : step ctx host t (.moveIn key alloc inc) = some t') :
    t'.keys = t.keys ∧ ∀ k, t'.lock k = t.lock k := by
  obtain ⟨⟨res, hmoves⟩, hkeys, -⟩ := moveIn_of_step ht h
  refine ⟨hkeys, fun k => ?_⟩
  rw [lock, lock]
  cases hmoves with
  | success hkey hm hinfo =>
    rw [hinfo]
    change (update t.info key _ k).lock = _
    by_cases hk : k = key
    · subst hk
      rw [update_self]
    · rw [update_of_ne hk]
  | already hkey hm hinfo =>
    rw [hinfo]
    rfl
  | refused hinfo => rw [hinfo]

theorem lock_moveOut (ht : t.WellFormed) (h : step ctx host t (.moveOut key) = some t') :
    t'.keys = t.keys ∧ ∀ k, t'.lock k = t.lock k := by
  rcases moveOut_of_step ht h with rfl | ⟨hinfo | hinfo, hkeys, -⟩
  · exact ⟨rfl, fun _ => rfl⟩
  · refine ⟨hkeys, fun k => ?_⟩
    rw [lock, hinfo]
    rfl
  · refine ⟨hkeys, fun k => ?_⟩
    rw [lock, hinfo]
    by_cases hk : k = key
    · subst hk
      rw [update_self]
      rfl
    · rw [update_of_ne hk]
      rfl

theorem lock_call {c : RowCall α}
    (h : step ctx host t (.call key c) = some t') :
    t'.keys = t.keys ∧ ∀ k, k ≠ key → t'.lock k = t.lock k := by
  obtain ⟨r, -, rfl⟩ := call_of_step h
  refine ⟨rfl, fun k hk => ?_⟩
  rw [lock, info_onRow, update_of_ne hk]
  rfl

end Table

namespace InsertSystem

variable {K α : Type} [LinearOrder K] {ctx : Context} {host : Host} {s s' : InsertSystem K α}
  {e : InsertLabel K α} {kind : LockKind} {low : K} {held : List K}

def nextRows (s : InsertSystem K α) : List K := s.pending.map next_row

structure Ready (s : InsertSystem K α) : Prop where
  wellFormed : s.table.WellFormed
  mem : ∀ n ∈ s.nextRows, n ∈ s.table.keys
  writer : ∀ n ∈ s.nextRows, (s.table.lock n).writer = true
  nodup : s.nextRows.Nodup

def Guarded (kind : LockKind) (low : K) (s : InsertSystem K α) (held : List K) : Prop :=
  Guards kind low s.table.keys s.table.lock s.nextRows held

theorem Ready.guarded (h : s.Ready) (kind : LockKind) (low : K) : s.Guarded kind low [] :=
  start h.mem h.writer h.nodup

theorem table_step (h : s.step ctx host e = some s') :
    ∃ e', s.table.KeepsRows e' ∧ s.table.step ctx host e' = some s'.table := by
  cases e with
  | insert key value =>
    simp only [step, insert, map_eq_some_iff] at h
    obtain ⟨res, hinsert, rfl⟩ := h
    refine ⟨.insert key value true, trivial, ?_⟩
    rw [Table.step, hinsert]
    rfl
  | commitInsert key =>
    simp only [step, commitInsert] at h
    split at h
    · rw [map_eq_some_iff] at h
      obtain ⟨t, hcommit, rfl⟩ := h
      exact ⟨.commitInsert key, trivial, hcommit⟩
    · cases h
  | releaseNext key new_value =>
    simp only [step, releaseNext, bind_eq_some_iff, map_eq_some_iff] at h
    obtain ⟨p, -, t, hcall, rfl⟩ := h
    exact ⟨.call p.next_row (.releaseVersion new_value), trivial, hcall⟩
  | moveIn key alloc inc =>
    simp only [step, onTable, map_eq_some_iff] at h
    obtain ⟨t, hmove, rfl⟩ := h
    exact ⟨.moveIn key alloc inc, trivial, hmove⟩
  | moveOut key =>
    simp only [step, onTable, map_eq_some_iff] at h
    obtain ⟨t, hmove, rfl⟩ := h
    exact ⟨.moveOut key, trivial, hmove⟩

theorem wellFormed_step (ht : s.table.WellFormed) (h : s.step ctx host e = some s') :
    s'.table.WellFormed := by
  obtain ⟨e', hkeeps, hstep⟩ := table_step h
  exact Table.wellFormed_step ht hkeeps.abortsUnmigrated hstep

theorem sound_step (ht : s.table.WellFormed) (hs : Sound s.table.keys s.table.info)
    (h : s.step ctx host e = some s') : Sound s'.table.keys s'.table.info := by
  obtain ⟨e', hkeeps, hstep⟩ := table_step h
  exact Table.sound_step ht hs hkeeps hstep

theorem guarded_afterInsert {key : K} {prev : Option K} {t' : Table K α} {ok : Bool}
    (hg : s.Guarded kind low held)
    (h : Table.InsertsAs key true prev (nextIn s.table.keys key) s.table t' ok) :
    (s.afterInsert key (nextIn s.table.keys key) (t', ok)).Guarded kind low held := by
  cases h with
  | refused hkeys hinfo =>
    have hlock : t'.lock = s.table.lock := by
      funext k
      rw [lock, hinfo]
      rfl
    change Guards kind low t'.keys t'.lock s.nextRows held
    rw [hkeys, hlock]
    exact hg
  | unlocked hkey hlock => cases hlock
  | @locked n hkey _ hnext hfree hkeys hinfo =>
    have hpending : (s.afterInsert key (nextIn s.table.keys key) (t', true)).nextRows
        = n :: s.nextRows := by
      rw [hnext]
      rfl
    have hn : n ≠ key := (nextIn_eq_some.mp hnext).2.1.ne'
    unfold Guarded
    rw [hpending]
    change Guards kind low t'.keys t'.lock _ held
    rw [hkeys]
    refine Guards.insert hg hkey hnext hfree ?_ fun k hkn hkkey => ?_
    · rw [lock, hinfo, update_of_ne hn]
      change (update s.table.info n _ n).lock = _
      rw [update_self]
      rfl
    · rw [lock, hinfo, update_of_ne hkkey]
      change (update s.table.info n _ k).lock = _
      rw [update_of_ne hkn]
      rfl

theorem guarded_commitInsert {key : K} (ht : s.table.WellFormed) (hg : s.Guarded kind low held)
    (h : s.commitInsert host key = some s') : s'.Guarded kind low held := by
  rw [commitInsert] at h
  split at h
  · rw [map_eq_some_iff] at h
    obtain ⟨t, hcommit, rfl⟩ := h
    obtain ⟨hkeys, -, -⟩ := commitInsert_spec ht hcommit
    have hpending : (InsertSystem.mk t (s.pending.map fun p =>
        if p.key = key then { p with committed := true } else p)).nextRows = s.nextRows := by
      rw [nextRows, List.map_map, nextRows]
      refine List.map_congr_left fun p _ => ?_
      change (if p.key = key then { p with committed := true } else p).next_row = p.next_row
      split <;> rfl
    unfold Guarded
    rw [hpending]
    change Guards kind low t.keys t.lock _ held
    rw [hkeys]
    exact of_lock hg (lock_commitInsert ht hcommit)
  · cases h

theorem guarded_releaseNext {key : K} {new_value : Word}
    (hg : s.Guarded kind low held) (h : s.releaseNext ctx host key new_value = some s') :
    s'.Guarded kind low held := by
  simp only [releaseNext, bind_eq_some_iff, map_eq_some_iff] at h
  obtain ⟨p, hfind, t, hcall, rfl⟩ := h
  have hp : p ∈ s.pending := List.mem_of_find?_eq_some hfind
  obtain ⟨hkeys, hlock⟩ := lock_call hcall
  have hperm : s.nextRows.Perm (p.next_row :: (s.pending.erase p).map next_row) :=
    (List.perm_cons_erase hp).map next_row
  change Guards kind low t.keys t.lock ((s.pending.erase p).map next_row) held
  rw [hkeys]
  exact release hg hperm hlock

theorem guarded_step (ht : s.table.WellFormed) (hg : s.Guarded kind low held)
    (h : s.step ctx host e = some s') : s'.Guarded kind low held := by
  cases e with
  | insert key value =>
    simp only [step, insert, map_eq_some_iff] at h
    obtain ⟨⟨t', ok⟩, hinsert, rfl⟩ := h
    exact guarded_afterInsert hg (insert_and_update_next_key_info_spec ht hinsert).1
  | commitInsert key => exact guarded_commitInsert ht hg h
  | releaseNext key new_value => exact guarded_releaseNext hg h
  | moveIn key alloc inc =>
    simp only [step, onTable, map_eq_some_iff] at h
    obtain ⟨t, hmove, rfl⟩ := h
    obtain ⟨hkeys, hlock⟩ := lock_moveIn ht hmove
    change Guards kind low t.keys t.lock s.nextRows held
    rw [hkeys]
    exact of_lock hg hlock
  | moveOut key =>
    simp only [step, onTable, map_eq_some_iff] at h
    obtain ⟨t, hmove, rfl⟩ := h
    obtain ⟨hkeys, hlock⟩ := lock_moveOut ht hmove
    change Guards kind low t.keys t.lock s.nextRows held
    rw [hkeys]
    exact of_lock hg hlock

theorem keys_step (hinsert : ∀ key value, e ≠ .insert key value) (ht : s.table.WellFormed)
    (h : s.step ctx host e = some s') : s'.table.keys = s.table.keys := by
  cases e with
  | insert key value => exact absurd rfl (hinsert key value)
  | commitInsert key =>
    simp only [step, commitInsert] at h
    split at h
    · rw [map_eq_some_iff] at h
      obtain ⟨t, hcommit, rfl⟩ := h
      exact (commitInsert_spec ht hcommit).1
    · cases h
  | releaseNext key new_value =>
    simp only [step, releaseNext, bind_eq_some_iff, map_eq_some_iff] at h
    obtain ⟨p, -, t, hcall, rfl⟩ := h
    exact (lock_call hcall).1
  | moveIn key alloc inc =>
    simp only [step, onTable, map_eq_some_iff] at h
    obtain ⟨t, hmove, rfl⟩ := h
    exact (lock_moveIn ht hmove).1
  | moveOut key =>
    simp only [step, onTable, map_eq_some_iff] at h
    obtain ⟨t, hmove, rfl⟩ := h
    exact (lock_moveOut ht hmove).1

end InsertSystem

end Tigon.TwoPLPasha
