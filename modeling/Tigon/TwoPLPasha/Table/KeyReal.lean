import Tigon.TwoPLPasha.Table.IndexConsistency

namespace Tigon.TwoPLPasha

open Function Presence Tigon.Library

-- A bit on a key of a finite set says that the next key is there and is marked.
section PointsNext

variable {K : Type} [LinearOrder K] {s s' : Finset K} {real real' marked marked' : K → Bool}
  {key : K}

def PointsNext (s : Finset K) (real marked : K → Bool) : Prop :=
  ∀ k ∈ s, real k = true → ∃ n, nextIn s k = some n ∧ marked n = true

theorem PointsNext.fewer (h : PointsNext s real marked)
    (hmarked : ∀ k, marked k = true → marked' k = true)
    (hreal : ∀ k, real' k = true → real k = true) : PointsNext s real' marked' := by
  intro k hk hbit
  obtain ⟨n, hn, hmark⟩ := h k hk (hreal k hbit)
  exact ⟨n, hn, hmarked n hmark⟩

theorem PointsNext.edit (h : PointsNext s real marked)
    (hnext : ∀ k ∈ s, k ≠ key → prevIn s key ≠ some k → nextIn s' k = nextIn s k)
    (hmem : ∀ k ∈ s', k ≠ key → k ∈ s) (hmarked : ∀ k, k ≠ key → marked' k = marked k)
    (hreal : ∀ k, real' k = true → k ≠ key ∧ prevIn s key ≠ some k ∧ real k = true) :
    PointsNext s' real' marked' := by
  intro k hk hbit
  obtain ⟨hne, hprev, hbit⟩ := hreal k hbit
  have hks := hmem k hk hne
  obtain ⟨n, hn, hmark⟩ := h k hks hbit
  have hnkey : n ≠ key := by
    rintro rfl
    exact hprev (prevIn_of_nextIn hks hn)
  refine ⟨n, (hnext k hks hne hprev).trans hn, ?_⟩
  rw [hmarked n hnkey]
  exact hmark

theorem PointsNext.mark (h : PointsNext s real marked) (hkey : key ∈ s)
    (hmark : marked' key = true) (hmarked : ∀ k, marked k = true → marked' k = true)
    (hreal : ∀ k, real' k = true → prevIn s key = some k ∨ real k = true ∨
      ∃ n, nextIn s k = some n ∧ marked' n = true) : PointsNext s real' marked' := by
  intro k hk hbit
  rcases hreal k hbit with hprev | hbit | hpoint
  · exact ⟨key, nextIn_of_prevIn hkey hprev, hmark⟩
  · obtain ⟨n, hn, hmark⟩ := h k hk hbit
    exact ⟨n, hn, hmarked n hmark⟩
  · exact hpoint

def PointsPrev (s : Finset K) (real marked : K → Bool) : Prop :=
  ∀ k ∈ s, real k = true → ∃ p, prevIn s k = some p ∧ marked p = true

theorem PointsPrev.fewer (h : PointsPrev s real marked)
    (hmarked : ∀ k, marked k = true → marked' k = true)
    (hreal : ∀ k, real' k = true → real k = true) : PointsPrev s real' marked' :=
  @PointsNext.fewer Kᵒᵈ _ s real real' marked marked' h hmarked hreal

theorem PointsPrev.edit (h : PointsPrev s real marked)
    (hprev : ∀ k ∈ s, k ≠ key → nextIn s key ≠ some k → prevIn s' k = prevIn s k)
    (hmem : ∀ k ∈ s', k ≠ key → k ∈ s) (hmarked : ∀ k, k ≠ key → marked' k = marked k)
    (hreal : ∀ k, real' k = true → k ≠ key ∧ nextIn s key ≠ some k ∧ real k = true) :
    PointsPrev s' real' marked' :=
  @PointsNext.edit Kᵒᵈ _ s s' real real' marked marked' key h hprev hmem hmarked hreal

theorem PointsPrev.mark (h : PointsPrev s real marked) (hkey : key ∈ s)
    (hmark : marked' key = true) (hmarked : ∀ k, marked k = true → marked' k = true)
    (hreal : ∀ k, real' k = true → nextIn s key = some k ∨ real k = true ∨
      ∃ p, prevIn s k = some p ∧ marked' p = true) : PointsPrev s real' marked' :=
  @PointsNext.mark Kᵒᵈ _ s real real' marked marked' key h hkey hmark hmarked hreal

end PointsNext

section Sound

variable {K : Type} [LinearOrder K]

structure Sound (keys : Finset K) (info : K → Presence) : Prop where
  next : PointsNext keys (fun k => (info k).next_real) fun k => (info k).migrated
  prev : PointsPrev keys (fun k => (info k).prev_real) fun k => (info k).migrated

variable {keys : Finset K} {info : K → Presence} {key k : K}

theorem next_real_clearAround (h : (clearAround keys key info k).next_real = true) :
    prevIn keys key ≠ some k ∧ (info k).next_real = true := by
  dsimp only [clearAround, clearBetween] at h
  split at h
  · cases h
  · rename_i hprev
    exact ⟨hprev, h⟩

theorem prev_real_clearAround (h : (clearAround keys key info k).prev_real = true) :
    nextIn keys key ≠ some k ∧ (info k).prev_real = true := by
  dsimp only [clearAround, clearBetween] at h
  split at h
  · cases h
  · rename_i hnext
    exact ⟨hnext, h⟩

theorem next_real_setAround (h : (setAround keys key info k).next_real = true) :
    prevIn keys key = some k ∨ (info k).next_real = true := by
  dsimp only [setAround] at h
  split at h
  · rename_i hprev
    exact .inl hprev
  · exact .inr h

theorem prev_real_setAround (h : (setAround keys key info k).prev_real = true) :
    nextIn keys key = some k ∨ (info k).prev_real = true := by
  dsimp only [setAround] at h
  split at h
  · rename_i hnext
    exact .inl hnext
  · exact .inr h

theorem update_eq_true (g : Presence → Bool) {i : Presence}
    (h : g (update info key i k) = true) :
    k = key ∧ g i = true ∨ k ≠ key ∧ g (info k) = true := by
  by_cases hk : k = key
  · subst hk
    rw [update_self] at h
    exact .inl ⟨rfl, h⟩
  · rw [update_of_ne hk] at h
    exact .inr ⟨hk, h⟩

theorem update_eq_of_eq (g : Presence → Bool) {i : Presence} (hg : g i = g (info key)) (k : K) :
    g (update info key i k) = g (info k) := by
  by_cases hk : k = key
  · subst hk
    rw [update_self]
    exact hg
  · rw [update_of_ne hk]

namespace Sound

theorem clear (h : Sound keys info) (key : K) : Sound keys (clearAround keys key info) where
  next := h.next.fewer (fun _ hm => hm) fun _ hbit => (next_real_clearAround hbit).2
  prev := h.prev.fewer (fun _ hm => hm) fun _ hbit => (prev_real_clearAround hbit).2

theorem setPresence (h : Sound keys info) {i : Presence}
    (hm : i.migrated = (info key).migrated) (hp : i.prev_real = (info key).prev_real)
    (hn : i.next_real = (info key).next_real) : Sound keys (update info key i) where
  next := h.next.fewer (fun k hk => (update_eq_of_eq migrated hm k).trans hk)
    fun k hbit => (update_eq_of_eq next_real hn k).symm.trans hbit
  prev := h.prev.fewer (fun k hk => (update_eq_of_eq migrated hm k).trans hk)
    fun k hbit => (update_eq_of_eq prev_real hp k).symm.trans hbit

theorem replace {keys' : Finset K} (h : Sound keys info) {i : Presence}
    (hi : i.prev_real = false ∧ i.next_real = false)
    (hkeys : keys' = keys ∨ keys' = insert key keys ∨ keys' = keys.erase key) :
    Sound keys' (update (clearAround keys key info) key i) := by
  have hmem : ∀ k ∈ keys', k ≠ key → k ∈ keys := by
    intro k hk hne
    rcases hkeys with rfl | rfl | rfl
    · exact hk
    · exact Finset.mem_of_mem_insert_of_ne hk hne
    · exact Finset.mem_of_mem_erase hk
  have hmarked : ∀ k, k ≠ key →
      (update (clearAround keys key info) key i k).migrated = (info k).migrated := by
    intro k hne
    rw [update_of_ne hne]
    rfl
  constructor
  · refine h.next.edit (fun k hk hne hprev => ?_) hmem hmarked fun k hbit => ?_
    · rcases hkeys with rfl | rfl | rfl
      · rfl
      · exact nextIn_insert hk hne hprev
      · exact nextIn_erase hk hprev
    · rcases update_eq_true next_real hbit with ⟨-, hbit⟩ | ⟨hne, hbit⟩
      · exact absurd (hbit.symm.trans hi.2) (by decide)
      · exact ⟨hne, next_real_clearAround hbit⟩
  · refine h.prev.edit (fun k hk hne hnext => ?_) hmem hmarked fun k hbit => ?_
    · rcases hkeys with rfl | rfl | rfl
      · rfl
      · exact prevIn_insert hk hne hnext
      · exact prevIn_erase hk hnext
    · rcases update_eq_true prev_real hbit with ⟨-, hbit⟩ | ⟨hne, hbit⟩
      · exact absurd (hbit.symm.trans hi.1) (by decide)
      · exact ⟨hne, prev_real_clearAround hbit⟩

theorem mark (h : Sound keys info) (hkey : key ∈ keys) (hm : (info key).migrated = true) :
    Sound keys (setAround keys key info) where
  next := h.next.mark hkey hm (fun _ hk => hk) fun _ hbit =>
    (next_real_setAround hbit).imp id .inl
  prev := h.prev.mark hkey hm (fun _ hk => hk) fun _ hbit =>
    (prev_real_setAround hbit).imp id .inl

theorem moveIn (h : Sound keys info) (hkey : key ∈ keys) (lock : LockView) :
    Sound keys (setAround keys key (update info key
      ⟨lock, true, migratedAt info (prevIn keys key), migratedAt info (nextIn keys key)⟩)) := by
  generalize hi : Presence.mk lock true _ _ = i
  have hmig : i.migrated = true := by rw [← hi]
  have hself : (update info key i key).migrated = true := by
    rw [update_self]
    exact hmig
  have hmono : ∀ k, (info k).migrated = true → (update info key i k).migrated = true := by
    intro k hk
    by_cases hkk : k = key
    · subst hkk
      exact hself
    · rw [update_of_ne hkk]
      exact hk
  -- the bits of the row itself say what its neighbours are
  have hpoint : ∀ o, migratedAt info o = true →
      ∃ n, o = some n ∧ (update info key i n).migrated = true := by
    intro o ho
    cases o with
    | none => cases ho
    | some n => exact ⟨n, rfl, hmono n ho⟩
  constructor
  · refine h.next.mark hkey hself hmono fun k hbit => ?_
    rcases next_real_setAround hbit with hprev | hbit
    · exact .inl hprev
    · rcases update_eq_true Presence.next_real hbit with ⟨rfl, hreal⟩ | ⟨-, hbit⟩
      · rw [← hi] at hreal
        exact .inr (.inr (hpoint _ hreal))
      · exact .inr (.inl hbit)
  · refine h.prev.mark hkey hself hmono fun k hbit => ?_
    rcases prev_real_setAround hbit with hnext | hbit
    · exact .inl hnext
    · rcases update_eq_true Presence.prev_real hbit with ⟨rfl, hreal⟩ | ⟨-, hbit⟩
      · rw [← hi] at hreal
        exact .inr (.inr (hpoint _ hreal))
      · exact .inr (.inl hbit)

end Sound

end Sound

namespace Table

variable {K α : Type} [LinearOrder K] {ctx : Context} {host : Host} {t t' : Table K α}
  {e : TableLabel K α}

def KeepsRows (_ : Table K α) : TableLabel K α → Prop
  | .abortInsert _ => False
  | _ => True

instance (t : Table K α) (e : TableLabel K α) : Decidable (t.KeepsRows e) := by
  rcases e with ⟨⟩ <;> unfold KeepsRows <;> infer_instance

omit [LinearOrder K] in
theorem KeepsRows.abortsUnmigrated (h : t.KeepsRows e) : t.AbortsUnmigrated e := by
  cases e with
  | abortInsert key => exact False.elim h
  | _ => trivial

theorem sound_of_insertsAs {key : K} {require ok : Bool} (hs : Sound t.keys t.info)
    (h : InsertsAs key require (prevIn t.keys key) (nextIn t.keys key) t t' ok) :
    Sound t'.keys t'.info := by
  cases h with
  | refused hkeys hinfo =>
    rw [hkeys, hinfo]
    exact hs
  | unlocked hkey hlock hkeys hinfo =>
    rw [hkeys, hinfo]
    exact hs.replace ⟨rfl, rfl⟩ (.inr (.inl rfl))
  | @locked n hkey hlock hnext hfree hkeys hinfo =>
    rw [hkeys, hinfo]
    have hlocked : Sound t.keys (update t.info n
        { t.info n with lock := (t.info n).lock.acquire .write }) :=
      hs.setPresence rfl rfl rfl
    exact hlocked.replace ⟨rfl, rfl⟩ (.inr (.inl rfl))

theorem sound_of_movesIn {key : K} {res : migration_result} (hs : Sound t.keys t.info)
    (hkeys : t'.keys = t.keys) (h : MovesIn key t t' res) : Sound t'.keys t'.info := by
  rw [hkeys]
  cases h with
  | success hkey hm hinfo =>
    rw [hinfo]
    exact hs.moveIn hkey _
  | already hkey hm hinfo =>
    rw [hinfo]
    exact hs.mark hkey hm
  | refused hinfo =>
    rw [hinfo]
    exact hs

theorem sound_step (ht : t.WellFormed) (hs : Sound t.keys t.info) (hok : t.KeepsRows e)
    (h : step ctx host t e = some t') : Sound t'.keys t'.info := by
  cases e with
  | insert key value require =>
    simp only [step, Option.map_eq_some_iff] at h
    obtain ⟨⟨t₁, ok⟩, hinsert, rfl⟩ := h
    exact sound_of_insertsAs hs (insert_and_update_next_key_info_spec ht hinsert).1
  | commitInsert key =>
    obtain ⟨hkeys, hinfo, -⟩ := commitInsert_spec ht h
    rw [hkeys, hinfo]
    exact hs.clear key
  | abortInsert key => exact False.elim hok
  | delete key is_local_delete =>
    rcases delete_of_step ht h with rfl | ⟨lock, hkeys, hinfo, -⟩
    · exact hs
    · rw [hkeys, hinfo]
      exact hs.replace ⟨rfl, rfl⟩ (.inr (.inr rfl))
  | moveIn key alloc inc =>
    obtain ⟨⟨res, hmoves⟩, hkeys, -⟩ := moveIn_of_step ht h
    exact sound_of_movesIn hs hkeys hmoves
  | moveOut key =>
    rcases moveOut_of_step ht h with rfl | ⟨hinfo | hinfo, hkeys, -⟩
    · exact hs
    · rw [hkeys, hinfo]
      exact hs.clear key
    · rw [hkeys, hinfo]
      exact hs.replace ⟨rfl, rfl⟩ (.inl rfl)
  | call key c =>
    obtain ⟨r, hcall, rfl⟩ := call_of_step h
    obtain ⟨hplace, -⟩ := RowCall.presence_apply (ht.row key) hcall
    rw [info_onRow]
    exact hs.setPresence (hplace.apply migrated fun _ _ => rfl)
      (hplace.apply prev_real fun _ _ => rfl)
      (hplace.apply next_real fun _ _ => rfl)

theorem sound_load (keys : Finset K) (smeta : Ptr → TwoPLPashaMetadataShared)
    (scc : Word → TwoPLPashaSharedDataSCC α) (value : K → α) :
    Sound keys (load keys smeta scc value).info := by
  have hnone : ∀ k, ((load keys smeta scc value).info k).migrated ≠ true := fun _ => nofun
  constructor
  · intro k _ hbit
    exact absurd (RowState.next_real_imp_migrated hbit) (hnone k)
  · intro k _ hbit
    exact absurd (RowState.prev_real_imp_migrated hbit) (hnone k)

theorem wellFormed_sound_of_reach {keys : Finset K} {smeta : Ptr → TwoPLPashaMetadataShared}
    {scc : Word → TwoPLPashaSharedDataSCC α} {value : K → α}
    (hreach : Reach (step ctx host) KeepsRows (load keys smeta scc value) t) :
    t.WellFormed ∧ Sound t.keys t.info := by
  refine hreach.invariant (P := fun t => t.WellFormed ∧ Sound t.keys t.info)
    ⟨wellFormed_load keys smeta scc value, sound_load keys smeta scc value⟩ ?_
  rintro t e t' ⟨ht, hs⟩ hok h
  exact ⟨wellFormed_step ht hok.abortsUnmigrated h, sound_step ht hs hok h⟩

-- A set bit of a migrated row tells the truth about its neighbour in the local index.
theorem key_real_bits_are_sound (ctx : Context) (host : Host) (keys : Finset K)
    (smeta : Ptr → TwoPLPashaMetadataShared) (scc : Word → TwoPLPashaSharedDataSCC α)
    (value : K → α) {t : Table K α}
    (hreach : Reach (step ctx host) KeepsRows (load keys smeta scc value) t) {key : K}
    (hm : (t.row key).lmeta.is_migrated = true) :
    (((t.row key).smeta (t.row key).lmeta.migrated_row).get_next_key_real_bit = true →
      ∃ next, nextIn t.keys key = some next ∧ (t.row next).lmeta.is_migrated = true) ∧
    (((t.row key).smeta (t.row key).lmeta.migrated_row).get_prev_key_real_bit = true →
      ∃ prev, prevIn t.keys key = some prev ∧ (t.row prev).lmeta.is_migrated = true) := by
  obtain ⟨ht, hs⟩ := wellFormed_sound_of_reach hreach
  have hkey : key ∈ t.keys := by
    by_contra hkey
    have hnot : (t.row key).lmeta.is_migrated = false := ht.gone key hkey
    exact absurd (hm.symm.trans hnot) (by decide)
  constructor
  · intro hbit
    exact hs.next key hkey ((Bool.and_eq_true _ _).mpr ⟨hm, hbit⟩)
  · intro hbit
    exact hs.prev key hkey ((Bool.and_eq_true _ _).mpr ⟨hm, hbit⟩)

theorem moved_in_neighbours_point_at_each_other :
    ∃ t : Table Nat Nat, Reach (step ⟨true, true⟩ 0) KeepsRows threeKeys t ∧
      ((t.row 5).smeta (t.row 5).lmeta.migrated_row).get_next_key_real_bit = true ∧
      ∃ next, nextIn t.keys 5 = some next ∧ (t.row next).lmeta.is_migrated = true := by
  obtain ⟨t, hreach, hm, hbit⟩ := exists_reach_of_run (step ⟨true, true⟩ 0) KeepsRows threeKeys
    [.moveIn 5 ⟨some 1, some (64, ⟨0, 0, 0, 0⟩)⟩ false,
      .moveIn 9 ⟨some 2, some (128, ⟨0, 0, 0, 0⟩)⟩ true, .insert 3 30 true, .commitInsert 3]
    (fun t => (t.row 5).lmeta.is_migrated = true ∧
      ((t.row 5).smeta (t.row 5).lmeta.migrated_row).get_next_key_real_bit = true) (by decide)
  exact ⟨t, hreach, hbit, (key_real_bits_are_sound _ _ _ _ _ _ hreach hm).1 hbit⟩

end Table

end Tigon.TwoPLPasha
