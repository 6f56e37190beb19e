import Tigon.TwoPLPasha.Table.Presence

namespace Tigon.TwoPLPasha

open Function Option RowState Tigon.Library

section Around

variable {K : Type} [LinearOrder K]

def clearBetween (prev next : Option K) (info : K → Presence) (k : K) : Presence :=
  { info k with
    next_real := if prev = some k then false else (info k).next_real
    prev_real := if next = some k then false else (info k).prev_real }

def clearAround (keys : Finset K) (key : K) (info : K → Presence) : K → Presence :=
  clearBetween (prevIn keys key) (nextIn keys key) info

def setAround (keys : Finset K) (key : K) (info : K → Presence) (k : K) : Presence :=
  { info k with
    next_real := if prevIn keys key = some k then (info k).migrated else (info k).next_real
    prev_real := if nextIn keys key = some k then (info k).migrated else (info k).prev_real }

def migratedAt (info : K → Presence) (key : Option K) : Bool :=
  match key with
  | some key => (info key).migrated
  | none => false

end Around

namespace Table

variable {K α : Type} [LinearOrder K]

def info (t : Table K α) (k : K) : Presence := (t.row k).presence

structure WellFormed (t : Table K α) : Prop where
  row : ∀ k, (t.row k).WellFormed
  gone : ∀ k, k ∉ t.keys → (t.info k).migrated = false

variable {t t' : Table K α} {key : K}

section Rows

variable (t)

theorem info_onRow (f : RowState α → RowState α) :
    (t.onRow key f).info = update t.info key (f (t.row key)).presence := by
  funext k
  by_cases hk : k = key
  · subst hk
    simp [info, onRow]
  · simp [info, onRow, hk]

variable {t}

theorem wellFormed_row_onRow {f : RowState α → RowState α} (ht : ∀ k, (t.row k).WellFormed)
    (hf : (f (t.row key)).WellFormed) (k : K) : ((t.onRow key f).row k).WellFormed := by
  by_cases hk : k = key
  · subst hk
    simpa [onRow] using hf
  · simpa [onRow, hk] using ht k

theorem info_onNeighbour {f : TwoPLPashaMetadataShared → TwoPLPashaMetadataShared}
    (g : Presence → Presence) (o : Option K)
    (hf : ∀ r : RowState α, (r.onMigrated f).presence = g r.presence) (k : K) :
    (t.onNeighbour o f).info k = if o = some k then g (t.info k) else t.info k := by
  cases o with
  | none => rfl
  | some key =>
    rw [onNeighbour, info_onRow]
    by_cases hk : k = key
    · subst hk
      simp [info, hf]
    · simp [hk, Ne.symm hk]

theorem wellFormed_row_onNeighbour {f : TwoPLPashaMetadataShared → TwoPLPashaMetadataShared}
    (hf : ∀ m, (f m).fields.scc_data = m.fields.scc_data) (o : Option K)
    (ht : ∀ k, (t.row k).WellFormed) (k : K) : ((t.onNeighbour o f).row k).WellFormed := by
  cases o with
  | none => exact ht k
  | some key => exact wellFormed_row_onRow ht (wellFormed_onMigrated hf (ht key)) k

@[simp]
theorem keys_onRow (f : RowState α → RowState α) : (t.onRow key f).keys = t.keys := rfl

@[simp]
theorem keys_onNeighbour (f : TwoPLPashaMetadataShared → TwoPLPashaMetadataShared)
    (o : Option K) : (t.onNeighbour o f).keys = t.keys := by
  cases o <;> rfl

@[simp]
theorem keys_clearAdjacent (prev next : Option K) : (t.clearAdjacent prev next).keys = t.keys := by
  simp [clearAdjacent]

@[simp]
theorem keys_clearKeyReal : (t.clearKeyReal key).keys = t.keys :=
  keys_clearAdjacent ..

@[simp]
theorem keys_setKeyReal : (t.setKeyReal key).keys = t.keys := by
  simp [setKeyReal]

@[simp]
theorem keys_addPlaceholder (value : α) :
    (t.addPlaceholder key value).keys = insert key t.keys := rfl

theorem info_clearAdjacent (t : Table K α) (prev next : Option K) :
    (t.clearAdjacent prev next).info = clearBetween prev next t.info := by
  funext k
  rw [clearAdjacent,
    info_onNeighbour (fun q => { q with prev_real := false }) _ presence_clear_prev,
    info_onNeighbour (fun q => { q with next_real := false }) _ presence_clear_next,
    clearBetween]
  split <;> split <;> rfl

theorem info_clearKeyReal (t : Table K α) (key : K) :
    (t.clearKeyReal key).info = clearAround t.keys key t.info :=
  info_clearAdjacent ..

theorem info_setKeyReal (t : Table K α) (key : K) :
    (t.setKeyReal key).info = setAround t.keys key t.info := by
  funext k
  rw [setKeyReal,
    info_onNeighbour (fun q => { q with prev_real := q.migrated }) _ presence_set_prev,
    info_onNeighbour (fun q => { q with next_real := q.migrated }) _ presence_set_next,
    setAround]
  split <;> split <;> rfl

theorem wellFormed_row_clearAdjacent (ht : ∀ k, (t.row k).WellFormed) (prev next : Option K)
    (k : K) : ((t.clearAdjacent prev next).row k).WellFormed :=
  wellFormed_row_onNeighbour (by simp) _ (wellFormed_row_onNeighbour (by simp) _ ht) k

theorem wellFormed_row_setKeyReal (ht : ∀ k, (t.row k).WellFormed) (key k : K) :
    ((t.setKeyReal key).row k).WellFormed :=
  wellFormed_row_onNeighbour (by simp) _ (wellFormed_row_onNeighbour (by simp) _ ht) k

end Rows

theorem WellFormed.clearAdjacent (ht : t.WellFormed) (prev next : Option K) :
    (t.clearAdjacent prev next).WellFormed := by
  refine ⟨wellFormed_row_clearAdjacent ht.row prev next, fun k hk => ?_⟩
  rw [info_clearAdjacent]
  rw [keys_clearAdjacent] at hk
  exact ht.gone k hk

theorem WellFormed.clearKeyReal (ht : t.WellFormed) (key : K) : (t.clearKeyReal key).WellFormed :=
  ht.clearAdjacent ..

theorem WellFormed.setKeyReal (ht : t.WellFormed) (key : K) : (t.setKeyReal key).WellFormed := by
  refine ⟨wellFormed_row_setKeyReal ht.row key, fun k hk => ?_⟩
  rw [info_setKeyReal]
  rw [keys_setKeyReal] at hk
  exact ht.gone k hk

theorem WellFormed.onRow (ht : t.WellFormed) (hkey : key ∈ t.keys)
    {f : RowState α → RowState α} (hf : (f (t.row key)).WellFormed) :
    (t.onRow key f).WellFormed := by
  refine ⟨wellFormed_row_onRow ht.row hf, fun k hk => ?_⟩
  have hne : k ≠ key := by
    rintro rfl
    exact hk hkey
  rw [info_onRow, update_of_ne hne]
  exact ht.gone k hk

theorem WellFormed.onRow_samePlace (ht : t.WellFormed) {r : RowState α}
    (hplace : RowView.SamePlace (t.row key).view r.view) (hr : r.WellFormed) :
    (t.onRow key fun _ => r).WellFormed := by
  refine ⟨wellFormed_row_onRow ht.row hr, fun k hk => ?_⟩
  rw [info_onRow]
  by_cases hkk : k = key
  · subst hkk
    rw [update_self]
    exact (hplace.apply Presence.migrated fun _ _ => rfl).trans (ht.gone k hk)
  · rw [update_of_ne hkk]
    exact ht.gone k hk

omit [LinearOrder K] in
theorem cxl_of_not_mem (ht : t.WellFormed) (hkey : key ∉ t.keys) : (t.row key).cxl = none := by
  have hcxl := (ht.row key).cxl
  have hnot : (t.row key).lmeta.is_migrated = false := ht.gone key hkey
  rw [hnot] at hcxl
  exact hcxl

theorem WellFormed.addPlaceholder (ht : t.WellFormed) (hkey : key ∉ t.keys) (value : α) :
    (t.addPlaceholder key value).WellFormed := by
  refine ⟨wellFormed_row_onRow ht.row
    (wellFormed_placeholder (cxl_of_not_mem ht hkey) value), fun k hk => ?_⟩
  have hk' : k ∉ insert key t.keys := hk
  rw [Finset.mem_insert, not_or] at hk'
  have hinfo : (t.addPlaceholder key value).info = _ := info_onRow t (placeholder value)
  rw [hinfo, update_of_ne hk'.1]
  exact ht.gone k hk'.2

section Functions

-- An insert between two neighbours, by what it does to the keys and to what is known of
-- the rows.
inductive InsertsAs (key : K) (require_lock_next_key : Bool) (prev next : Option K)
    (t t' : Table K α) : Bool → Prop
  | refused (hkeys : t'.keys = t.keys) (hinfo : t'.info = t.info) :
      InsertsAs key require_lock_next_key prev next t t' false
  | unlocked (hkey : key ∉ t.keys) (hlock : require_lock_next_key = false)
      (hkeys : t'.keys = insert key t.keys)
      (hinfo : t'.info = update (clearBetween prev next t.info) key
        ⟨⟨0, false⟩, false, false, false⟩) :
      InsertsAs key require_lock_next_key prev next t t' true
  | locked {n : K} (hkey : key ∉ t.keys) (hlock : require_lock_next_key = true)
      (hnext : next = some n) (hfree : (t.info n).lock.free 31 .write = true)
      (hkeys : t'.keys = insert key t.keys)
      (hinfo : t'.info = update (clearBetween prev next
          (update t.info n { t.info n with lock := (t.info n).lock.acquire .write })) key
        ⟨⟨0, false⟩, false, false, false⟩) :
      InsertsAs key require_lock_next_key prev next t t' true

theorem info_addPlaceholder (t : Table K α) (key : K) (value : α) :
    (t.addPlaceholder key value).info
      = update t.info key ⟨⟨0, false⟩, false, false, false⟩ := by
  have hinfo : (t.addPlaceholder key value).info = _ := info_onRow t (placeholder value)
  rw [hinfo, presence_placeholder]

theorem presence_localLock {r : RowState α} (hr : r.WellFormed) (kind : LockKind) (copy : Bool)
    (host : Host) :
    (r.localLock kind copy host).row.WellFormed ∧
    RowView.SamePlace r.view (r.localLock kind copy host).row.view ∧
    ((r.localLock kind copy host).success = true → r.presence.lock.free 31 kind = true ∧
      (r.localLock kind copy host).row.presence
        = { r.presence with lock := r.presence.lock.acquire kind }) ∧
    ((r.localLock kind copy host).success = false →
      (r.localLock kind copy host).row.presence = r.presence) := by
  obtain ⟨hview, hsuccess, -, -, hwf⟩ := localLock_refines hr kind copy host
  have hplace := RowView.samePlace_localLock r.view kind
  rw [← hview] at hplace
  refine ⟨hwf, hplace, fun hok => ?_, fun hok => ?_⟩
  · have hlocks := hsuccess.symm.trans hok
    refine ⟨RowView.free_of_localLocks hlocks, ?_⟩
    have hlock : (r.localLock kind copy host).row.view.lock = r.view.lock.acquire kind := by
      rw [hview, RowView.lock_localLock, if_pos hlocks]
    exact hplace.trans (by rw [hlock]; rfl)
  · have hlocks := hsuccess.symm.trans hok
    have hlock : (r.localLock kind copy host).row.view.lock = r.view.lock := by
      rw [hview, RowView.lock_localLock, hlocks]
      rfl
    exact hplace.trans (by rw [hlock]; rfl)

theorem insertBetween_spec {host : Host} {value : α} {require ok : Bool} {prev next : Option K}
    (ht : t.WellFormed) (hkey : key ∉ t.keys)
    (h : t.insertBetween host key value require prev next = some (t', ok)) :
    InsertsAs key require prev next t t' ok ∧ t'.WellFormed := by
  rw [insertBetween, map_eq_some_iff] at h
  obtain ⟨⟨t₁, should_insert⟩, hproc, h⟩ := h
  rw [adjacent_tuples_processor] at hproc
  split at hproc
  · rename_i hrequire
    rw [map_eq_some_iff] at hproc
    obtain ⟨n, hnext, hproc⟩ := hproc
    obtain ⟨hwf, hplace, hyes, hno⟩ := presence_localLock (ht.row n) .write false host
    have hrow := ht.onRow_samePlace hplace hwf
    dsimp only at hproc
    split at hproc
    · rename_i hok
      cases hproc
      cases h
      obtain ⟨hfree, hpresence⟩ := hyes hok
      refine ⟨.locked hkey hrequire hnext hfree (by simp) ?_,
        (hrow.clearAdjacent prev (some n)).addPlaceholder (by simpa using hkey) value⟩
      rw [hnext, info_addPlaceholder, info_clearAdjacent, info_onRow]
      have hpresence' : ((t.row n).write_lock host).row.presence = _ := hpresence
      rw [hpresence']
      rfl
    · rename_i hok
      cases hproc
      cases h
      refine ⟨.refused rfl ?_, hrow⟩
      have hpresence : ((t.row n).write_lock host).row.presence = _ :=
        hno (eq_false_of_ne_true hok)
      rw [info_onRow, hpresence]
      exact update_eq_self n t.info
  · rename_i hrequire
    cases hproc
    cases h
    refine ⟨.unlocked hkey (eq_false_of_ne_true hrequire) (by simp) ?_,
      (ht.clearAdjacent prev next).addPlaceholder (by simpa using hkey) value⟩
    rw [info_addPlaceholder, info_clearAdjacent]

theorem insert_and_update_next_key_info_spec {host : Host} {value : α} {require ok : Bool}
    (ht : t.WellFormed)
    (h : t.insert_and_update_next_key_info host key value require = some (t', ok)) :
    InsertsAs key require (prevIn t.keys key) (nextIn t.keys key) t t' ok ∧ t'.WellFormed := by
  rw [insert_and_update_next_key_info] at h
  split at h
  · cases h
    exact ⟨.refused rfl rfl, ht⟩
  · rename_i hkey
    exact insertBetween_spec ht hkey h

theorem commitInsert_spec {host : Host} (ht : t.WellFormed)
    (h : t.commitInsert host key = some t') :
    t'.keys = t.keys ∧ t'.info = clearAround t.keys key t.info ∧ t'.WellFormed := by
  rw [commitInsert] at h
  split at h
  · rename_i hkey
    rw [map_eq_some_iff] at h
    obtain ⟨r, hmod, rfl⟩ := h
    obtain ⟨hview, hwf⟩ := modify_tuple_valid_bit_refines
      ((ht.clearKeyReal key).row key) hmod
    refine ⟨by simp, ?_, (ht.clearKeyReal key).onRow (by simpa using hkey) hwf⟩
    have hplace := RowView.samePlace_setValid ((t.clearKeyReal key).row key).view true
    rw [← hview] at hplace
    have hsame : r.presence = (t.clearKeyReal key).info key := by
      refine hplace.trans ?_
      rw [hview, RowView.lock_setValid]
      rfl
    rw [info_onRow, hsame, update_eq_self, info_clearKeyReal]
  · cases h

theorem delete_and_update_next_key_info_spec (ht : t.WellFormed) (hkey : key ∈ t.keys)
    (is_local_delete : Bool) :
    ∃ lock : LockView,
      (t.delete_and_update_next_key_info key is_local_delete).keys = t.keys.erase key ∧
      (t.delete_and_update_next_key_info key is_local_delete).info
        = update (clearAround t.keys key t.info) key ⟨lock, false, false, false⟩ ∧
      (t.delete_and_update_next_key_info key is_local_delete).WellFormed := by
  rw [delete_and_update_next_key_info, if_pos hkey]
  have hnot := is_migrated_delete is_local_delete ((t.clearKeyReal key).row key)
  have hinfo : ((t.clearKeyReal key).onRow key (delete is_local_delete)).info = _ :=
    info_onRow (t.clearKeyReal key) (delete is_local_delete)
  rw [info_clearKeyReal, presence_of_not_migrated hnot] at hinfo
  refine ⟨_, rfl, hinfo, ?_, ?_⟩
  · exact wellFormed_row_onRow (ht.clearKeyReal key).row
      (wellFormed_delete ((ht.clearKeyReal key).row key) is_local_delete)
  · intro k hk
    have hk' : k ∉ t.keys.erase key := hk
    change (((t.clearKeyReal key).onRow key (delete is_local_delete)).info k).migrated
      = false
    rw [hinfo]
    by_cases hkk : k = key
    · subst hkk
      rw [update_self]
    · rw [update_of_ne hkk]
      exact ht.gone k fun hmem => hk' (Finset.mem_erase.mpr ⟨hkk, hmem⟩)

omit [LinearOrder K] in
theorem isMigrated_eq (t : Table K α) (o : Option K) : t.isMigrated o = migratedAt t.info o := by
  cases o <;> rfl

theorem fields_keyReal (prev_real next_real : Bool) (m : TwoPLPashaMetadataShared) :
    (keyReal prev_real next_real m).fields
      = { m.fields with prev_real := prev_real, next_real := next_real } := by
  cases prev_real <;> cases next_real <;> simp [keyReal]

inductive MovesIn (key : K) (t t' : Table K α) : migration_result → Prop
  | success (hkey : key ∈ t.keys) (hm : (t.info key).migrated = false)
      (hinfo : t'.info = setAround t.keys key (update t.info key
        ⟨(t.info key).lock, true, migratedAt t.info (prevIn t.keys key),
          migratedAt t.info (nextIn t.keys key)⟩)) : MovesIn key t t' .SUCCESS
  | already (hkey : key ∈ t.keys) (hm : (t.info key).migrated = true)
      (hinfo : t'.info = setAround t.keys key t.info) : MovesIn key t t' .FAIL_ALREADY_IN_CXL
  | refused (hinfo : t'.info = t.info) : MovesIn key t t' .FAIL_OOM

theorem move_from_btree_to_shared_region_spec {ctx : Context} {host : Host}
    {alloc : Allocation α} {inc : Bool} {res : migration_result} (ht : t.WellFormed)
    (halloc : ∀ o d, alloc.scc = some (o, d) → o.toNat < 2 ^ 37)
    (h : t.move_from_btree_to_shared_region ctx host alloc inc key = some (t', res)) :
    MovesIn key t t' res ∧ t'.keys = t.keys ∧ t'.WellFormed := by
  rw [move_from_btree_to_shared_region] at h
  split at h
  · rename_i hkey
    rw [map_eq_some_iff] at h
    obtain ⟨⟨r, res'⟩, hmove, hpair⟩ := h
    obtain ⟨hrow, hwf⟩ := moveIn_refines (fun m _ _ => fields_keyReal _ _ m)
      (ht.row key) halloc hmove
    have hwf' := ht.onRow hkey (f := fun _ => r) hwf
    cases hrow with
    | @success p fresh hm hp hfresh hview =>
      cases hpair
      refine ⟨.success hkey hm ?_, by simp, hwf'.setKeyReal key⟩
      have hpresence : r.presence = ⟨(t.info key).lock, true, t.isMigrated (prevIn t.keys key),
          t.isMigrated (nextIn t.keys key)⟩ := by
        rw [presence, hview]
        rfl
      rw [if_neg (by decide), info_setKeyReal, info_onRow, hpresence, isMigrated_eq, isMigrated_eq]
      rfl
    | already hm hview =>
      cases hpair
      refine ⟨.already hkey hm ?_, by simp, hwf'.setKeyReal key⟩
      rw [if_neg (by decide), info_setKeyReal, info_onRow, presence_of_view hview]
      exact congrArg (setAround t.keys key) (update_eq_self key t.info)
    | outOfMemory hview =>
      cases hpair
      refine ⟨.refused ?_, rfl, hwf'⟩
      rw [if_pos rfl, info_onRow, presence_of_view hview]
      exact update_eq_self key t.info
  · cases h
    exact ⟨.refused rfl, rfl, ht⟩

theorem move_from_btree_to_partition_spec (ctx : Context) (host : Host) (ht : t.WellFormed)
    (hkey : key ∈ t.keys) :
    ((t.move_from_btree_to_partition ctx host key).1.info = clearAround t.keys key t.info ∨
      (t.move_from_btree_to_partition ctx host key).1.info
        = update (clearAround t.keys key t.info) key
          ⟨(t.info key).lock, false, false, false⟩) ∧
    (t.move_from_btree_to_partition ctx host key).1.keys = t.keys ∧
    (t.move_from_btree_to_partition ctx host key).1.WellFormed := by
  rw [move_from_btree_to_partition, if_pos hkey]
  have hclear := ht.clearKeyReal key
  have hmem : key ∈ (t.clearKeyReal key).keys := by simpa using hkey
  obtain ⟨hview, hwf⟩ := moveOut_refines ctx host (hclear.row key)
  have hwf' := hclear.onRow hmem
    (f := fun _ => (moveOut ctx host ((t.clearKeyReal key).row key)).1) hwf
  refine ⟨?_, by simp, hwf'⟩
  have hlock : (((t.clearKeyReal key).row key).presence).lock = (t.info key).lock := by
    have hinfo := congrFun (info_clearKeyReal t key) key
    rw [info] at hinfo
    rw [hinfo]
    rfl
  rcases hview with ⟨hview, -⟩ | hview
  · right
    have hpresence : (moveOut ctx host ((t.clearKeyReal key).row key)).1.presence
        = ⟨(t.info key).lock, false, false, false⟩ := by
      rw [presence, hview, ← hlock]
      rfl
    dsimp only
    rw [info_onRow, hpresence, info_clearKeyReal]
  · left
    dsimp only
    rw [info_onRow, presence_of_view hview, ← info_clearKeyReal]
    exact update_eq_self key (t.clearKeyReal key).info

end Functions

section Steps

variable {ctx : Context} {host : Host} {t t' : Table K α} {key : K}

theorem moveIn_of_step {alloc : Allocation α} {inc : Bool} (ht : t.WellFormed)
    (h : step ctx host t (.moveIn key alloc inc) = some t') :
    (∃ res, MovesIn key t t' res) ∧ t'.keys = t.keys ∧ t'.WellFormed := by
  obtain ⟨hadmits, h⟩ := ite_none_right_eq_some.mp h
  obtain ⟨⟨t₁, res⟩, hmove, rfl⟩ := map_eq_some_iff.mp h
  obtain ⟨hmoves, hkeys, hwf⟩ := move_from_btree_to_shared_region_spec ht
    (fun o d hscc => hadmits.2 (o, d) hscc) hmove
  refine ⟨⟨res, ?_⟩, hkeys, hwf.row, hwf.gone⟩
  cases hmoves with
  | success hkey hm hinfo => exact .success hkey hm hinfo
  | already hkey hm hinfo => exact .already hkey hm hinfo
  | refused hinfo => exact .refused hinfo

theorem moveOut_of_step (ht : t.WellFormed) (h : step ctx host t (.moveOut key) = some t') :
    t' = t ∨ (t'.info = clearAround t.keys key t.info ∨
      t'.info = update (clearAround t.keys key t.info) key
        ⟨(t.info key).lock, false, false, false⟩) ∧ t'.keys = t.keys ∧ t'.WellFormed := by
  cases h
  by_cases hkey : key ∈ t.keys
  · exact .inr (move_from_btree_to_partition_spec ctx host ht hkey)
  · rw [move_from_btree_to_partition, if_neg hkey]
    exact .inl rfl

theorem delete_of_step {is_local_delete : Bool} (ht : t.WellFormed)
    (h : step ctx host t (.delete key is_local_delete) = some t') :
    t' = t ∨ ∃ lock : LockView, t'.keys = t.keys.erase key ∧
      t'.info = update (clearAround t.keys key t.info) key ⟨lock, false, false, false⟩ ∧
      t'.WellFormed := by
  cases h
  by_cases hkey : key ∈ t.keys
  · exact .inr (delete_and_update_next_key_info_spec ht hkey is_local_delete)
  · rw [delete_and_update_next_key_info, if_neg hkey]
    exact .inl rfl

theorem call_of_step {c : RowCall α} (h : step ctx host t (.call key c) = some t') :
    ∃ r, c.apply host (t.row key) = some r ∧ t' = t.onRow key fun _ => r := by
  obtain ⟨-, h⟩ := ite_none_right_eq_some.mp h
  obtain ⟨r, hcall, rfl⟩ := map_eq_some_iff.mp h
  exact ⟨r, hcall, rfl⟩

end Steps

end Table

end Tigon.TwoPLPasha
