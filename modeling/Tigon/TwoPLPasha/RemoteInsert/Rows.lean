import Tigon.TwoPLPasha.Metadata.Coherence
import Tigon.TwoPLPasha.RemoteInsert
import Tigon.TwoPLPasha.Table.Spec

namespace Tigon.TwoPLPasha

open Function Option RowState TwoPLPashaMetadataShared Tigon.Library

namespace RowState

variable {α : Type}

-- Edits of the bits of shared words that leave alone where the words lead to.
structure EditsBits (r r' : RowState α) : Prop where
  lmeta : r'.lmeta = r.lmeta
  data : r'.data = r.data
  scc : r'.scc = r.scc
  cxl : r'.cxl = r.cxl
  smeta : ∀ q, (r'.smeta q).fields.scc_data = (r.smeta q).fields.scc_data

variable {r r' r'' r₀ : RowState α} {v : α} {row : Ptr}

theorem EditsBits.rfl : EditsBits r r :=
  ⟨Eq.refl _, Eq.refl _, Eq.refl _, Eq.refl _, fun _ => Eq.refl _⟩

theorem EditsBits.trans (h : EditsBits r r') (h' : EditsBits r' r'') : EditsBits r r'' :=
  ⟨h'.lmeta.trans h.lmeta, h'.data.trans h.data, h'.scc.trans h.scc, h'.cxl.trans h.cxl,
    fun q => (h'.smeta q).trans (h.smeta q)⟩

theorem editsBits_onSmeta {f : TwoPLPashaMetadataShared → TwoPLPashaMetadataShared}
    (hf : (f (r.smeta row)).fields.scc_data = (r.smeta row).fields.scc_data) :
    EditsBits r (r.onSmeta row f) := by
  refine ⟨Eq.refl _, Eq.refl _, Eq.refl _, Eq.refl _, fun q => ?_⟩
  by_cases hq : q = row
  · subst hq
    simpa [onSmeta] using hf
  · simp [onSmeta, hq]

theorem editsBits_onMigrated {f : TwoPLPashaMetadataShared → TwoPLPashaMetadataShared}
    (hf : ∀ m, (f m).fields.scc_data = m.fields.scc_data) : EditsBits r (r.onMigrated f) := by
  rw [onMigrated]
  split
  · exact editsBits_onSmeta (hf _)
  · exact .rfl

theorem editsBits_finish_write {host : Host} (h : r.finish_write host row = some r') :
    EditsBits r r' := by
  rw [finish_write, map_eq_some_iff] at h
  obtain ⟨m, hm, rfl⟩ := h
  exact editsBits_onSmeta (congrArg _ (fields_finish_write _ hm))

theorem exists_finish_write {host : Host} (h : (r.smeta row).scc_bit host = true) :
    ∃ r', r.finish_write host row = some r' := by
  rw [finish_write, finish_write_eq_some _ _ h]
  exact ⟨_, Eq.refl _⟩

-- The placeholder of an insert that has not been moved in; `r₀` is what its key had before.
structure Waiting (r₀ : RowState α) (v : α) (r : RowState α) : Prop where
  lmeta : r.lmeta = TwoPLPashaMetadataLocalInit false
  data : r.data = v
  cxl : r.cxl = r₀.cxl
  smeta : ∀ q, (r.smeta q).fields.scc_data = (r₀.smeta q).fields.scc_data

-- The row once it is moved in. An entry of the index that was there before stays, and
-- leads elsewhere.
structure Moved (r₀ : RowState α) (v : α) (valid : Bool) (r : RowState α) : Prop where
  migrated : r.lmeta.is_migrated = true
  cxl : r.cxl = some (r₀.cxl.getD r.lmeta.migrated_row)
  leftover : ∀ q ∈ r₀.cxl, (r.smeta q).fields.scc_data ≠ r.current.fields.scc_data
  valid : (r.sccOf r.lmeta.migrated_row).valid = valid
  data : (r.sccOf r.lmeta.migrated_row).data = v

theorem Waiting.editsBits (h : Waiting r₀ v r) (he : EditsBits r r') : Waiting r₀ v r' :=
  ⟨he.lmeta.trans h.lmeta, he.data.trans h.data, he.cxl.trans h.cxl,
    fun q => (he.smeta q).trans (h.smeta q)⟩

theorem EditsBits.sccOf (he : EditsBits r r') (q : Ptr) : r'.sccOf q = r.sccOf q := by
  rw [RowState.sccOf, RowState.sccOf, he.scc]
  simp [he.smeta q]

variable {valid : Bool}

theorem Moved.editsBits (h : Moved r₀ v valid r) (he : EditsBits r r') : Moved r₀ v valid r' := by
  have hrow : r'.lmeta.migrated_row = r.lmeta.migrated_row := by rw [he.lmeta]
  refine ⟨by rw [he.lmeta]; exact h.migrated, by rw [he.cxl, hrow]; exact h.cxl, ?_, ?_, ?_⟩
  · intro q hq
    rw [current, he.smeta, hrow, he.smeta]
    exact h.leftover q hq
  · rw [he.sccOf, hrow]
    exact h.valid
  · rw [he.sccOf, hrow]
    exact h.data

theorem Waiting.onScc (h : Waiting r₀ v r)
    (g : TwoPLPashaSharedDataSCC α → TwoPLPashaSharedDataSCC α) : Waiting r₀ v (r.onScc row g) :=
  ⟨h.lmeta, h.data, h.cxl, h.smeta⟩

theorem Moved.onScc (h : Moved r₀ v valid r)
    {g : TwoPLPashaSharedDataSCC α → TwoPLPashaSharedDataSCC α} {valid' : Bool}
    (hdata : ∀ d, (g d).data = d.data)
    (hvalid : if (r.smeta row).fields.scc_data = r.current.fields.scc_data then
      (g (r.sccOf r.lmeta.migrated_row)).valid = valid' else valid = valid') :
    Moved r₀ v valid' (r.onScc row g) := by
  have hscc : (r.onScc row g).sccOf r.lmeta.migrated_row
      = if (r.smeta row).fields.scc_data = r.current.fields.scc_data
        then g (r.sccOf r.lmeta.migrated_row) else r.sccOf r.lmeta.migrated_row := by
    by_cases hblock : (r.smeta row).fields.scc_data = r.current.fields.scc_data
    · have hcur : r.sccOf row = r.sccOf r.lmeta.migrated_row := by
        simp only [RowState.sccOf, get_scc_data_eq]
        rw [hblock, current]
      rw [if_pos hblock, ← hcur]
      simp [RowState.sccOf, RowState.onScc, hblock, current]
    · rw [if_neg hblock]
      have hne : (r.smeta r.lmeta.migrated_row).fields.scc_data ≠ (r.smeta row).fields.scc_data :=
        fun heq => hblock heq.symm
      simp [RowState.sccOf, RowState.onScc, hne]
  refine ⟨h.migrated, h.cxl, h.leftover, ?_, ?_⟩
  · change ((r.onScc row g).sccOf r.lmeta.migrated_row).valid = valid'
    rw [hscc]
    split
    · rename_i hblock
      rw [if_pos hblock] at hvalid
      exact hvalid
    · rename_i hblock
      rw [if_neg hblock] at hvalid
      exact h.valid.trans hvalid
  · change ((r.onScc row g).sccOf r.lmeta.migrated_row).data = v
    rw [hscc]
    split
    · exact (hdata _).trans h.data
    · exact h.data

theorem Waiting.content (h : Waiting r₀ v r) : r.content = none := by
  simp [RowState.content, h.lmeta, TwoPLPashaMetadataLocalInit]

theorem Moved.content (h : Moved r₀ v valid r) : r.content = if valid then some v else none := by
  rw [RowState.content, if_pos h.migrated, ← h.valid, ← h.data]
  rfl

section MoveIn

variable {ctx : Context} {host : Host} {alloc : Allocation α} {inc : Bool}
  {keyReal : TwoPLPashaMetadataShared → TwoPLPashaMetadataShared} {res : migration_result}

theorem scc_bit_copyLock (tid : Word) (m : TwoPLPashaMetadataShared) :
    (copyLock tid m).scc_bit host = m.scc_bit host := by
  have hlt : (read_lock_num tid).toNat < 32 := by
    rw [toNat_read_lock_num]
    exact tidFields_readers_lt tid
  have hreaders := scc_bit_set_reader_count m host hlt
  rw [copyLock]
  split
  · rw [scc_bit_set_write_locked, hreaders]
  · rw [scc_bit_clear_write_locked, hreaders]

variable (hkey : ∀ m, (keyReal m).scc_bit host = m.scc_bit host)

include hkey

theorem exists_installShared (r : RowState α) (p : Ptr) (o : Word) :
    ∃ r', installShared ctx host inc keyReal r p o = some r' := by
  apply exists_finish_write
  simp only [update_self]
  rw [hkey, scc_bit_clear_is_data_modified_since_moved_in,
    scc_bit_copyLock, scc_bit_init_scc_metadata, decide_eq_true rfl]

theorem exists_moveIn (r : RowState α) :
    ∃ r' res, moveIn ctx host alloc inc keyReal r = some (r', res) := by
  rw [moveIn]
  split
  · cases alloc.smeta with
    | none => exact ⟨_, _, rfl⟩
    | some p =>
      cases r.sccForMoveIn ctx alloc with
      | none => exact ⟨_, _, rfl⟩
      | some b =>
        obtain ⟨r'', hinstall⟩ : ∃ r'', installShared ctx host inc keyReal b.1 p b.2 = some r'' :=
          exists_installShared hkey b.1 p b.2
        exact ⟨r'', .SUCCESS, by simp [hinstall]⟩
  · exact ⟨_, _, rfl⟩

omit hkey

-- The memory a move-in is given is not in use by what the CXL index has for the key.
structure Unused (r₀ : RowState α) (alloc : Allocation α) : Prop where
  offset : ∀ b ∈ alloc.scc, b.1.toNat < 2 ^ 37
  smeta : ∀ q ∈ r₀.cxl, alloc.smeta ≠ some q
  scc : ∀ q ∈ r₀.cxl, ∀ b ∈ alloc.scc, b.1 ≠ (r₀.smeta q).get_scc_data

variable (hreal : ∀ m, (keyReal m).fields.scc_data = m.fields.scc_data)

include hreal

theorem Waiting.installShared {p : Ptr} {o : Word} {d : TwoPLPashaSharedDataSCC α}
    (h : Waiting r₀ v r) (hsmeta : alloc.smeta = some p) (hscc : alloc.scc = some (o, d))
    (hunused : Unused r₀ alloc)
    (hin : installShared ctx host inc keyReal
      { r with
        lmeta := { r.lmeta with scc_data := some o }
        scc := Function.update r.scc o d } p o = some r') :
    Moved r₀ v false r' := by
  refine Moved.editsBits ?_ (editsBits_finish_write hin)
  have ho := hunused.offset (o, d) hscc
  have hword : (keyReal ((copyLock r.lmeta.tid ((construct o
      ).init_scc_metadata host)).clear_is_data_modified_since_moved_in)).fields.scc_data = o := by
    rw [hreal]
    simp [fields_copyLock, fields_construct ho]
  refine ⟨rfl, by simp [h.cxl], ?_, ?_, ?_⟩
  · intro q hq
    have hne : q ≠ p := by
      rintro rfl
      exact hunused.smeta q hq hsmeta
    have hblock := hunused.scc q hq (o, d) hscc
    simp only [current, update_self, update_of_ne hne, hword, h.smeta]
    exact hblock.symm
  · simp only [sccOf, update_self, get_scc_data_eq, hword]
    have hcopy := congrArg Copy.valid (copyOf_copyIn ctx
      { r with
        lmeta := { r.lmeta with scc_data := some o }
        scc := Function.update r.scc o d } inc d)
    simpa [copyOf, view, h.lmeta, TwoPLPashaMetadataLocalInit] using hcopy
  · simp only [sccOf, update_self, get_scc_data_eq, hword]
    have hcopy := congrArg Copy.data (copyOf_copyIn ctx
      { r with
        lmeta := { r.lmeta with scc_data := some o }
        scc := Function.update r.scc o d } inc d)
    simpa [copyOf, view, h.lmeta, TwoPLPashaMetadataLocalInit, h.data] using hcopy

theorem Waiting.moveIn (h : Waiting r₀ v r) (hunused : Unused r₀ alloc)
    (hin : moveIn ctx host alloc inc keyReal r = some (r', res)) :
    alloc.smeta.isSome ∧ alloc.scc.isSome ∧ Moved r₀ v false r' ∨
      ¬ (alloc.smeta.isSome ∧ alloc.scc.isSome) ∧ Waiting r₀ v r' := by
  have hnot : r.lmeta.is_migrated = false := by rw [h.lmeta]; rfl
  have hnone : r.lmeta.scc_data = none := by rw [h.lmeta]; rfl
  rw [RowState.moveIn, if_pos hnot] at hin
  cases hsmeta : alloc.smeta with
  | none =>
    simp only [hsmeta] at hin
    cases hin
    exact .inr ⟨by simp, h⟩
  | some p =>
    cases hscc : alloc.scc with
    | none =>
      simp only [hsmeta, sccForMoveIn, hnone, hscc, map_none] at hin
      cases hin
      exact .inr ⟨by simp, h⟩
    | some b =>
      simp only [hsmeta, sccForMoveIn, hnone, hscc, map_some, map_eq_some_iff] at hin
      obtain ⟨r'', hinstall, hpair⟩ := hin
      cases hpair
      exact .inl ⟨rfl, rfl, h.installShared hreal hsmeta hscc hunused hinstall⟩

omit hreal

theorem Moved.moveIn {valid : Bool} (h : Moved r₀ v valid r)
    (hin : moveIn ctx host alloc inc keyReal r = some (r', res)) :
    Moved r₀ v valid r' := by
  rw [RowState.moveIn, if_neg (by simp [h.migrated])] at hin
  cases hin
  cases inc with
  | false => exact h
  | true =>
    refine h.onScc (fun _ => rfl) ?_
    split
    · exact h.valid
    · rfl

end MoveIn

def Tracks (r₀ : RowState α) (v : α) (memory : Prop) (r : RowState α) : Prop :=
  memory ∧ Moved r₀ v false r ∨ ¬ memory ∧ Waiting r₀ v r

theorem Tracks.editsBits {memory : Prop} (h : Tracks r₀ v memory r) (he : EditsBits r r') :
    Tracks r₀ v memory r' :=
  h.imp (And.imp_right fun hr => hr.editsBits he) (And.imp_right fun hr => hr.editsBits he)

end RowState

namespace Table

variable {K α : Type} [LinearOrder K] {t t' : Table K α} {key k : K}

section Edits

open RowState (EditsBits)

variable (t)

theorem editsBits_onNeighbour {f : TwoPLPashaMetadataShared → TwoPLPashaMetadataShared}
    (hf : ∀ m, (f m).fields.scc_data = m.fields.scc_data) (o : Option K) (k : K) :
    EditsBits (t.row k) ((t.onNeighbour o f).row k) := by
  cases o with
  | none => exact .rfl
  | some key =>
    by_cases hk : k = key
    · subst hk
      simpa [onNeighbour, onRow] using editsBits_onMigrated hf
    · simpa [onNeighbour, onRow, hk] using EditsBits.rfl

theorem editsBits_clearAdjacent (prev next : Option K) (k : K) :
    EditsBits (t.row k) ((t.clearAdjacent prev next).row k) :=
  (t.editsBits_onNeighbour (by simp) prev k).trans (editsBits_onNeighbour _ (by simp) next k)

theorem editsBits_setKeyReal (key k : K) :
    EditsBits (t.row k) ((t.setKeyReal key).row k) :=
  (t.editsBits_onNeighbour (by simp) _ k).trans (editsBits_onNeighbour _ (by simp) _ k)

theorem insert_without_next_lock (host : Host) (key : K) (value : α) :
    t.insert_and_update_next_key_info host key value false
      = if key ∈ t.keys then some (t, false)
        else some ((t.clearKeyReal key).addPlaceholder key value, true) := rfl

variable {t}

theorem scc_bit_keyReal (prev_real next_real : Bool) (m : TwoPLPashaMetadataShared) (host : Host) :
    (keyReal prev_real next_real m).scc_bit host = m.scc_bit host := by
  cases prev_real <;> cases next_real <;> simp [keyReal]

theorem exists_move_from_btree_to_shared_region (ctx : Context) (host : Host)
    (alloc : Allocation α) (inc : Bool) (hkey : key ∈ t.keys) :
    ∃ t' res r' keyReal,
      t.move_from_btree_to_shared_region ctx host alloc inc key = some (t', res) ∧
      (∀ m, (keyReal m).fields.scc_data = m.fields.scc_data) ∧
      moveIn ctx host alloc inc keyReal (t.row key) = some (r', res) ∧
      t'.keys = t.keys ∧ EditsBits r' (t'.row key) ∧
      ∀ k, k ≠ key → EditsBits (t.row k) (t'.row k) := by
  let real := keyReal (t.isMigrated (prevIn t.keys key)) (t.isMigrated (nextIn t.keys key))
  obtain ⟨r', res, hin⟩ : ∃ r' res,
      moveIn ctx host alloc inc real (t.row key) = some (r', res) :=
    exists_moveIn (fun m => scc_bit_keyReal _ _ m host) (t.row key)
  have hself : (t.onRow key fun _ => r').row key = r' := by simp [onRow]
  have hother : ∀ k, k ≠ key → (t.onRow key fun _ => r').row k = t.row k := by
    intro k hk
    simp [onRow, hk]
  have hmove : t.move_from_btree_to_shared_region ctx host alloc inc key
      = some (if res = .FAIL_OOM then t.onRow key fun _ => r'
          else (t.onRow key fun _ => r').setKeyReal key, res) := by
    rw [move_from_btree_to_shared_region, if_pos hkey]
    simp only [hin, real, map_some]
  refine ⟨_, res, r', real, hmove, fun m => by simp [real, fields_keyReal], hin, ?_, ?_, ?_⟩
  · split <;> simp
  · split
    · rw [hself]
      exact .rfl
    · have hedit := (t.onRow key fun _ => r').editsBits_setKeyReal key key
      rwa [hself] at hedit
  · intro k hk
    split
    · rw [hother k hk]
      exact .rfl
    · have hedit := (t.onRow key fun _ => r').editsBits_setKeyReal key k
      rwa [hother k hk] at hedit

end Edits

end Table

end Tigon.TwoPLPasha
