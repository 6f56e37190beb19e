import Tigon.TwoPLPasha.MigrationSystem
import Tigon.TwoPLPasha.RemoteInsert.Rows

namespace Tigon.TwoPLPasha

open Function Option RowState Tigon.Library
open Tigon.Pasha.MigrationManager (Callbacks Places TakesAway)

namespace RowState

open TwoPLPashaSharedDataSCC (valid_flag_index)

variable {α : Type} {r r' : RowState α} {o : Word}

theorem EditsBits.block (he : EditsBits r r') : r'.block = r.block := by
  rw [RowState.block, RowState.block, he.lmeta]

theorem EditsBits.get_scc_data (he : EditsBits r r') (p : Ptr) :
    (r'.smeta p).get_scc_data = (r.smeta p).get_scc_data :=
  he.smeta p

theorem WellFormed.editsBits (hr : r.WellFormed) (he : EditsBits r r') : r'.WellFormed := by
  refine ⟨by rw [he.lmeta]; exact hr.offset, fun hm => ?_, by rw [he.cxl, he.lmeta]; exact hr.cxl⟩
  rw [he.lmeta] at hm
  rw [current, he.lmeta, he.smeta]
  exact hr.scc hm

theorem block_of_not_migrated (hm : r.lmeta.is_migrated = false) : r.block = none :=
  if_neg (by simp [hm])

theorem WellFormed.block (hr : r.WellFormed) (hm : r.lmeta.is_migrated = true) :
    r.block = some (r.smeta r.lmeta.migrated_row).get_scc_data := by
  rw [RowState.block, if_pos hm]
  exact hr.scc hm

theorem migrated_of_block (h : r.block = some o) : r.lmeta.is_migrated = true :=
  (ite_none_right_eq_some.mp h).1

theorem WellFormed.migrated_iff (hr : r.WellFormed) :
    r.lmeta.is_migrated = true ↔ r.block.isSome = true := by
  constructor
  · intro hm
    rw [hr.block hm]
    rfl
  · intro hsome
    obtain ⟨o, ho⟩ := isSome_iff_exists.mp hsome
    exact migrated_of_block ho

inductive FillsAs (ctx : Context) (alloc : Allocation α) (inc_ref_cnt : Bool) (r r' : RowState α) :
    migration_result → Prop
  | success {p : Ptr} {o : Word} {n : BitVec 8} (hm : r.lmeta.is_migrated = false)
      (hp : alloc.smeta = some p) (hcount : r.countForMoveIn ctx alloc = some n)
      (hmigrated : r'.lmeta.is_migrated = true) (hblock : r'.lmeta.scc_data = some o)
      (hcxl : r'.cxl = some p) (hsmeta : (r'.smeta p).get_scc_data = o)
      (hstale : ∀ q, q ≠ p → (r'.smeta q).get_scc_data = (r.smeta q).get_scc_data)
      (hscc : ∀ o', o' ≠ o → r'.scc o' = r.scc o')
      (href : (r'.scc o).ref_cnt = if inc_ref_cnt then n + 1 else n) :
      FillsAs ctx alloc inc_ref_cnt r r' .SUCCESS
  | already (hm : r.lmeta.is_migrated = true)
      (hr' : r' = if inc_ref_cnt then r.onScc r.lmeta.migrated_row fun d => d.inc_ref_cnt else r) :
      FillsAs ctx alloc inc_ref_cnt r r' .FAIL_ALREADY_IN_CXL
  | outOfMemory (hr' : r' = r) : FillsAs ctx alloc inc_ref_cnt r r' .FAIL_OOM

variable {ctx : Context} {alloc : Allocation α}

theorem scc_sccForMoveIn (h : r.sccForMoveIn ctx alloc = some (r', o)) (o' : Word) (ho' : o' ≠ o) :
    r'.scc o' = r.scc o' := by
  rw [sccForMoveIn] at h
  split at h
  · cases h
    rfl
  · obtain ⟨b, -, hb⟩ := map_eq_some_iff.mp h
    cases hb
    exact update_of_ne ho' _ _

theorem ref_cnt_copyIn (ctx : Context) (r : RowState α) (inc : Bool)
    (d : TwoPLPashaSharedDataSCC α) :
    (copyIn ctx r inc d).ref_cnt = if inc then d.ref_cnt + 1 else d.ref_cnt := by
  simp only [copyIn]
  cases inc <;> cases r.lmeta.is_valid <;>
    cases r.lmeta.is_data_modified_since_moved_out || ctx.enable_migration_optimization == false <;>
    rfl

theorem moveIn_fills {host : Host} {inc : Bool}
    {keyReal : TwoPLPashaMetadataShared → TwoPLPashaMetadataShared} {res : migration_result}
    (hreal : ∀ m, (keyReal m).fields.scc_data = m.fields.scc_data) (hr : r.WellFormed)
    (halloc : ∀ b ∈ alloc.scc, b.1.toNat < 2 ^ 37)
    (h : moveIn ctx host alloc inc keyReal r = some (r', res)) :
    FillsAs ctx alloc inc r r' res := by
  rw [moveIn] at h
  cases hm : r.lmeta.is_migrated with
  | true =>
    rw [if_neg (by simp [hm])] at h
    cases h
    exact .already hm rfl
  | false =>
    rw [if_pos hm] at h
    cases hp : alloc.smeta with
    | none =>
      simp only [hp] at h
      cases h
      exact .outOfMemory rfl
    | some p =>
      simp only [hp] at h
      cases hblock : r.sccForMoveIn ctx alloc with
      | none =>
        simp only [hblock] at h
        cases h
        exact .outOfMemory rfl
      | some b =>
        obtain ⟨r₁, o⟩ := b
        simp only [hblock, map_eq_some_iff] at h
        obtain ⟨r₂, hinstall, hpair⟩ := h
        cases hpair
        obtain ⟨heq, ho, -⟩ := sccForMoveIn_spec hr (fun o d hscc => halloc (o, d) hscc) hblock
        have he := editsBits_finish_write hinstall
        have hword : (keyReal ((copyLock r₁.lmeta.tid ((TwoPLPashaMetadataShared.construct o
            ).init_scc_metadata host)).clear_is_data_modified_since_moved_in)).fields.scc_data
            = o := by
          rw [hreal]
          simp [fields_copyLock, TwoPLPashaMetadataShared.fields_construct ho]
        refine .success (p := p) (o := o) (n := (r₁.scc o).ref_cnt) hm hp ?_ ?_ ?_ ?_ ?_ ?_ ?_ ?_
        · simp [countForMoveIn, hm, hblock]
        · rw [he.lmeta]
        · rw [he.lmeta, heq]
        · rw [he.cxl, heq]
          simp [hr.cxl, hm]
        · rw [he.get_scc_data]
          simp only [update_self]
          exact hword
        · intro q hq
          rw [he.get_scc_data]
          simp only [update_of_ne hq]
          rw [heq]
        · intro o' ho'
          rw [he.scc]
          simp only [update_of_ne ho']
          exact scc_sccForMoveIn hblock o' ho'
        · rw [he.scc]
          simp only [update_self]
          exact ref_cnt_copyIn ctx r₁ inc _

theorem FillsAs.block {inc : Bool} {res : migration_result} (h : FillsAs ctx alloc inc r r' res) :
    res = .SUCCESS ∧ r.block = none ∧ r'.block = r'.lmeta.scc_data ∧ r'.block.isSome = true ∨
      res ≠ .SUCCESS ∧ r'.block = r.block := by
  cases h with
  | success hm _ _ hmigrated hblock =>
    have hsome : r'.block = r'.lmeta.scc_data := if_pos hmigrated
    exact .inl ⟨rfl, block_of_not_migrated hm, hsome, by rw [hsome, hblock]; rfl⟩
  | already hm hr' =>
    refine .inr ⟨by decide, ?_⟩
    subst hr'
    split <;> rfl
  | outOfMemory hr' => exact .inr ⟨by decide, by rw [hr']⟩

structure Leaves (r r' : RowState α) : Prop where
  migrated : r'.lmeta.is_migrated = false
  cxl : r'.cxl = none
  get_scc_data : ∀ q, (r'.smeta q).get_scc_data = (r.smeta q).get_scc_data
  valid : ∀ o ∈ r.block, (r'.scc o).valid = false
  scc : ∀ o, r.block ≠ some o → r'.scc o = r.scc o

theorem EditsBits.leaves {r₁ : RowState α} (he : EditsBits r r₁) (h : Leaves r₁ r') :
    Leaves r r' := by
  refine ⟨h.migrated, h.cxl, fun q => (h.get_scc_data q).trans (he.get_scc_data q), ?_, ?_⟩
  · intro o ho
    rw [← he.block] at ho
    exact h.valid o ho
  · intro o ho
    rw [← he.block] at ho
    rw [h.scc o ho, he.scc]

theorem leaves_of_onScc {g : TwoPLPashaSharedDataSCC α → TwoPLPashaSharedDataSCC α}
    {r₁ : RowState α} (hr : r.WellFormed) (hm : r.lmeta.is_migrated = true) (he : EditsBits r r₁)
    (hg : (g (r.sccOf r.lmeta.migrated_row)).valid = false)
    (hmigrated : r'.lmeta.is_migrated = false)
    (hcxl : r'.cxl = none) (hsmeta : r'.smeta = r₁.smeta)
    (hscc : r'.scc = (r₁.onScc r.lmeta.migrated_row g).scc) : Leaves r r' := by
  have hblock := hr.block hm
  have hedit : r'.scc = Function.update r.scc (r.smeta r.lmeta.migrated_row).get_scc_data
      (g (r.sccOf r.lmeta.migrated_row)) := by
    rw [hscc, onScc, he.sccOf, he.scc, he.get_scc_data]
  refine ⟨hmigrated, hcxl, fun q => by rw [hsmeta]; exact he.get_scc_data q, ?_, ?_⟩
  · intro o ho
    rw [hblock] at ho
    cases ho
    rw [hedit, update_self]
    exact hg
  · intro o ho
    have hne : o ≠ (r.smeta r.lmeta.migrated_row).get_scc_data := by
      rintro rfl
      exact ho hblock
    rw [hedit, update_of_ne hne]

theorem uninstallShared_leaves (ctx : Context) (host : Host) (hr : r.WellFormed)
    (hm : r.lmeta.is_migrated = true) : Leaves r (uninstallShared ctx host r) := by
  have he : EditsBits r ((r.prepare_read host r.lmeta.migrated_row).onSmeta r.lmeta.migrated_row
      fun m => m.clear_is_data_modified_since_moved_in) :=
    (editsBits_onSmeta (by simp)).trans (editsBits_onSmeta (by simp))
  exact leaves_of_onScc (g := fun d => d.clear_flag valid_flag_index) hr hm he
    (TwoPLPashaSharedDataSCC.valid_clear_flag _) rfl rfl rfl rfl

theorem moveOut_leaves (ctx : Context) (host : Host) (hr : r.WellFormed) :
    moveOut ctx host r = (r, false) ∨
      moveOut ctx host r = (r, true) ∧ r.lmeta.is_migrated = false ∨
      ∃ r', moveOut ctx host r = (r', true) ∧ Leaves r r' ∧ r'.WellFormed ∧
        r.lmeta.is_migrated = true ∧ (r.sccOf r.lmeta.migrated_row).ref_cnt.toNat = 0 := by
  rw [moveOut]
  split
  · rename_i hm
    split
    · exact .inl rfl
    · rename_i hcount
      have hzero : (r.sccOf r.lmeta.migrated_row).ref_cnt.toNat = 0 := by bv_omega
      exact .inr (.inr ⟨_, rfl, uninstallShared_leaves ctx host hr hm,
        (uninstallShared_refines ctx host hr hm).2, hm, hzero⟩)
  · rename_i hm
    exact .inr (.inl ⟨rfl, eq_false_of_ne_true hm⟩)

theorem delete_leaves (hr : r.WellFormed) (hm : r.lmeta.is_migrated = true) (is_local_delete : Bool)
    (hvalid : is_local_delete = false →
      (r.sccOf r.lmeta.migrated_row).get_flag valid_flag_index = false) :
    Leaves r (r.delete is_local_delete) := by
  rw [delete, if_pos hm]
  cases is_local_delete with
  | true =>
    exact leaves_of_onScc (g := fun d => d.clear_flag valid_flag_index) hr hm .rfl
      (TwoPLPashaSharedDataSCC.valid_clear_flag _) rfl rfl rfl rfl
  | false =>
    have hsame : r.scc = (r.onScc r.lmeta.migrated_row id).scc :=
      (update_eq_self ..).symm
    exact leaves_of_onScc (g := id) hr hm .rfl (hvalid rfl) rfl rfl rfl hsame

theorem latched_cases (r : RowState α) (p : Ptr) (inc_ref_cnt : Bool) :
    (r.sccOf p).valid = true ∧ inc_ref_cnt = true ∧
        r.get_migrated_row_latched p inc_ref_cnt = (r.onScc p fun d => d.inc_ref_cnt, some p) ∨
      ∃ res, r.get_migrated_row_latched p inc_ref_cnt = (r, res) ∧
        (res.isSome && inc_ref_cnt) = false := by
  rw [get_migrated_row_latched]
  split
  · rename_i hvalid
    cases inc_ref_cnt with
    | false => exact .inr ⟨_, rfl, Bool.and_false _⟩
    | true => exact .inl ⟨hvalid, rfl, rfl⟩
  · exact .inr ⟨_, rfl, rfl⟩

theorem delete_of_not_migrated (hm : r.lmeta.is_migrated = false) (is_local_delete : Bool) :
    r.delete is_local_delete = { r with lmeta := { r.lmeta with is_valid := false } } := by
  rw [delete, if_neg (by simp [hm])]

end RowState

namespace Table

open RowState (EditsBits FillsAs)

variable {T K α : Type} [LinearOrder K] {t t' : Table K α} {key : K}

-- One row of the table is replaced, and of the others at most bits of shared words change.
structure Replaces (t t' : Table K α) (key : K) (r : RowState α) : Prop where
  row : EditsBits r (t'.row key)
  other : ∀ k, k ≠ key → EditsBits (t.row k) (t'.row k)

structure Agrees (t t' : Table K α) : Prop where
  keys : t'.keys = t.keys
  allocated : t'.allocated = t.allocated
  row : ∀ k, EditsBits (t.row k) (t'.row k)

@[simp]
theorem allocated_onNeighbour (f : TwoPLPashaMetadataShared → TwoPLPashaMetadataShared)
    (o : Option K) : (t.onNeighbour o f).allocated = t.allocated := by
  cases o <;> rfl

theorem agrees_clearKeyReal : Agrees t (t.clearKeyReal key) :=
  ⟨keys_clearKeyReal, by simp [clearKeyReal, clearAdjacent], t.editsBits_clearAdjacent _ _⟩

theorem agrees_setKeyReal : Agrees t (t.setKeyReal key) :=
  ⟨keys_setKeyReal, by simp [setKeyReal], t.editsBits_setKeyReal key⟩

theorem replaces_onRow (t : Table K α) (key : K) (r : RowState α) :
    Replaces t (t.onRow key fun _ => r) key r := by
  refine ⟨by simpa [onRow] using EditsBits.rfl, fun k hk => ?_⟩
  simpa [onRow, hk] using EditsBits.rfl

omit [LinearOrder K] in
theorem Replaces.agrees {t'' : Table K α} {r : RowState α} (h : Replaces t t' key r)
    (ha : Agrees t' t'') : Replaces t t'' key r :=
  ⟨h.row.trans (ha.row key), fun k hk => (h.other k hk).trans (ha.row k)⟩

omit [LinearOrder K] in
theorem Agrees.replaces {t'' : Table K α} {r : RowState α} (ha : Agrees t t')
    (h : Replaces t' t'' key r) : Replaces t t'' key r :=
  ⟨h.row, fun k hk => (ha.row k).trans (h.other k hk)⟩

variable {cfg : PartitionConfig T} {table : T} {alloc : Allocation α} {inc : Bool}

theorem move_from_partition_to_shared_region_replaces {res : migration_result}
    (ht : (t.row key).WellFormed) (halloc : t.admits alloc)
    (h : t.move_from_partition_to_shared_region cfg table alloc inc key = some (t', res)) :
    t'.keys = t.keys ∧ t'.allocated = t.allocated ∧
      (res ≠ .FAIL_OOM → cfg.keepsNeighbours table = true → key ∈ t.keys) ∧
      ∃ r, FillsAs cfg.ctx alloc inc (t.row key) r res ∧ r.WellFormed ∧ Replaces t t' key r := by
  have hoffset : ∀ o d, alloc.scc = some (o, d) → o.toNat < 2 ^ 37 :=
    fun o d hscc => halloc.2 (o, d) hscc
  rw [move_from_partition_to_shared_region] at h
  split at h
  · rename_i hkeeps
    rw [move_from_btree_to_shared_region] at h
    split at h
    · rename_i hkey
      obtain ⟨⟨r, res'⟩, hmove, hpair⟩ := map_eq_some_iff.mp h
      have hreal : ∀ m, (keyReal (t.isMigrated (prevIn t.keys key))
          (t.isMigrated (nextIn t.keys key)) m).fields.scc_data = m.fields.scc_data :=
        fun m => by rw [fields_keyReal]
      have hfills := moveIn_fills hreal ht halloc.2 hmove
      obtain ⟨-, hwf⟩ := moveIn_refines (fun m _ _ => fields_keyReal _ _ m) ht hoffset hmove
      have hrow := replaces_onRow t key r
      cases hpair
      refine ⟨?_, ?_, fun _ _ => hkey, r, hfills, hwf, ?_⟩
      · split <;> simp
      · split
        · rfl
        · exact agrees_setKeyReal.allocated
      · split
        · exact hrow
        · exact hrow.agrees agrees_setKeyReal
    · cases h
      refine ⟨rfl, rfl, fun hres => absurd rfl hres, _, .outOfMemory rfl, ht, .rfl, fun _ _ => .rfl⟩
  · rename_i hkeeps
    obtain ⟨⟨r, res'⟩, hmove, hpair⟩ := map_eq_some_iff.mp h
    cases hpair
    have hfills := moveIn_fills (fun _ => rfl) ht halloc.2 hmove
    obtain ⟨-, hwf⟩ := moveIn_refines fields_id_of_not_real ht hoffset hmove
    exact ⟨rfl, rfl, fun _ hk => absurd hk hkeeps, r, hfills, hwf, replaces_onRow t key r⟩

theorem exists_move_from_partition_to_shared_region (t : Table K α) :
    ∃ t' res, t.move_from_partition_to_shared_region cfg table alloc inc key = some (t', res) := by
  rw [move_from_partition_to_shared_region]
  split
  · by_cases hkey : key ∈ t.keys
    · obtain ⟨t', res, -, -, hmove, -⟩ :=
        exists_move_from_btree_to_shared_region cfg.ctx cfg.coordinator_id alloc inc hkey
      exact ⟨t', res, hmove⟩
    · rw [move_from_btree_to_shared_region, if_neg hkey]
      exact ⟨_, _, rfl⟩
  · obtain ⟨r, res, hmove⟩ := @RowState.exists_moveIn α cfg.ctx cfg.coordinator_id alloc inc id
      (fun _ => rfl) (t.row key)
    rw [move_from_hashmap_to_shared_region, hmove]
    exact ⟨_, _, rfl⟩

inductive TakesOut (t t' : Table K α) (key : K) : Bool → Prop
  | inUse (h : Agrees t t') : TakesOut t t' key false
  | absent (h : Agrees t t') (hm : (t.row key).lmeta.is_migrated = false) : TakesOut t t' key true
  | leaves {r : RowState α} (hm : (t.row key).lmeta.is_migrated = true)
      (hcount : ((t.row key).sccOf (t.row key).lmeta.migrated_row).ref_cnt.toNat = 0)
      (hleaves : RowState.Leaves (t.row key) r) (hwf : r.WellFormed) (h : Replaces t t' key r)
      (hkeys : t'.keys = t.keys) (hallocated : t'.allocated = t.allocated) : TakesOut t t' key true

theorem takesOut_moveOut {t₁ : Table K α} {ctx : Context} {host : Host}
    (ht : (t.row key).WellFormed) (ha : Agrees t t₁) :
    TakesOut t (t₁.onRow key fun _ => (moveOut ctx host (t₁.row key)).1) key
      (moveOut ctx host (t₁.row key)).2 := by
  have he := ha.row key
  have hsame : t₁.onRow key (fun _ => t₁.row key) = t₁ := by
    rw [onRow, update_eq_self]
  rcases moveOut_leaves ctx host (ht.editsBits he) with
    hmove | ⟨hmove, hm⟩ | ⟨r, hmove, hleaves, hwf, hm, hcount⟩
  · rw [hmove, hsame]
    exact .inUse ha
  · rw [hmove, hsame]
    rw [he.lmeta] at hm
    exact .absent ha hm
  · rw [hmove]
    rw [he.sccOf, he.lmeta] at hcount
    rw [he.lmeta] at hm
    exact .leaves hm hcount (he.leaves hleaves) hwf (ha.replaces (replaces_onRow t₁ key r)) ha.keys
      ha.allocated

theorem move_from_shared_region_to_partition_takesOut (ht : (t.row key).WellFormed) :
    TakesOut t (t.move_from_shared_region_to_partition cfg table key).1 key
      (t.move_from_shared_region_to_partition cfg table key).2 := by
  rw [move_from_shared_region_to_partition]
  split
  · rw [move_from_btree_to_partition]
    split
    · exact takesOut_moveOut ht agrees_clearKeyReal
    · exact .inUse ⟨rfl, rfl, fun _ => .rfl⟩
  · exact takesOut_moveOut ht ⟨rfl, rfl, fun _ => .rfl⟩

theorem delete_and_update_next_key_info_replaces (hkey : key ∈ t.keys) (is_local_delete : Bool) :
    (t.delete_and_update_next_key_info key is_local_delete).keys = t.keys.erase key ∧
      (t.delete_and_update_next_key_info key is_local_delete).allocated = t.allocated ∧
      ∃ r, EditsBits (t.row key) r ∧
        Replaces t (t.delete_and_update_next_key_info key is_local_delete) key
          (r.delete is_local_delete) := by
  rw [delete_and_update_next_key_info, if_pos hkey]
  have ha : Agrees t (t.clearKeyReal key) := agrees_clearKeyReal
  refine ⟨rfl, ha.allocated, (t.clearKeyReal key).row key, ha.row key, ?_⟩
  have hrow := ha.replaces (replaces_onRow (t.clearKeyReal key) key
    (((t.clearKeyReal key).row key).delete is_local_delete))
  exact ⟨hrow.row, hrow.other⟩

end Table

section Partition

open RowState (EditsBits FillsAs)
open Table (Replaces Agrees TakesOut)

variable {T K α : Type} [DecidableEq T] [LinearOrder K] {tables : T → Table K α} {row : T × K}
  {t : Table K α} {r : RowState α}

def RowsWellFormed (tables : T → Table K α) : Prop := ∀ row, (rowOf tables row).WellFormed

omit [LinearOrder K] in
theorem rowOf_self (h : Replaces (tables row.1) t row.2 r) :
    EditsBits r (rowOf (Function.update tables row.1 t) row) := by
  rw [rowOf, update_self]
  exact h.row

omit [LinearOrder K] in
theorem rowOf_other (h : Replaces (tables row.1) t row.2 r) {other : T × K} (hne : other ≠ row) :
    EditsBits (rowOf tables other) (rowOf (Function.update tables row.1 t) other) := by
  rw [rowOf, rowOf]
  by_cases htable : other.1 = row.1
  · rw [htable, update_self]
    exact h.other other.2 fun hkey => hne (Prod.ext htable hkey)
  · rw [update_of_ne htable]
    exact .rfl

theorem placed_update (h : Replaces (tables row.1) t row.2 r) :
    placed (Function.update tables row.1 t) = Function.update (placed tables) row r.block := by
  funext other
  by_cases hrow : other = row
  · subst hrow
    rw [update_self]
    exact (rowOf_self h).block
  · rw [update_of_ne hrow]
    exact (rowOf_other h hrow).block

theorem RowsWellFormed.update (hwf : RowsWellFormed tables) (h : Replaces (tables row.1) t row.2 r)
    (hr : r.WellFormed) : RowsWellFormed (Function.update tables row.1 t) := by
  intro other
  by_cases hrow : other = row
  · subst hrow
    exact hr.editsBits (rowOf_self h)
  · exact (hwf other).editsBits (rowOf_other h hrow)

theorem setRow_self (tables : T → Table K α) (row : T × K) :
    setRow tables row (rowOf tables row) = tables := by
  rw [setRow, Table.onRow, rowOf, update_eq_self, update_eq_self]

theorem placed_setRow (hblock : r.block = (rowOf tables row).block) :
    placed (setRow tables row r) = placed tables := by
  rw [setRow, placed_update (Table.replaces_onRow (tables row.1) row.2 r), hblock]
  exact update_eq_self row (placed tables)

theorem RowsWellFormed.setRow (hwf : RowsWellFormed tables) (hr : r.WellFormed) :
    RowsWellFormed (setRow tables row r) :=
  hwf.update (Table.replaces_onRow (tables row.1) row.2 r) hr

omit [DecidableEq T] [LinearOrder K] in
theorem Table.Agrees.replaces_self {t t' : Table K α} (h : Agrees t t') (key : K) :
    Replaces t t' key (t.row key) :=
  ⟨h.row key, fun k _ => h.row k⟩

variable {cfg : PartitionConfig T} {alloc : Allocation α}

structure MovesRowIn (cfg : PartitionConfig T) (alloc : Allocation α) (inc_ref_cnt : Bool)
    (tables : T → Table K α) (row : T × K) (t : Table K α) (res : migration_result) : Prop where
  keys : t.keys = (tables row.1).keys
  allocated : t.allocated = alloc.smeta.toList ++ (tables row.1).allocated
  mem : res ≠ .FAIL_OOM → cfg.keepsNeighbours row.1 = true → row.2 ∈ (tables row.1).keys
  fills : ∃ r, FillsAs cfg.ctx alloc inc_ref_cnt (rowOf tables row) r res ∧ r.WellFormed ∧
    Replaces (tables row.1) t row.2 r

theorem exists_movesRowIn (cfg : PartitionConfig T) (hwf : RowsWellFormed tables)
    (halloc : (tables row.1).admits alloc) (inc : Bool) :
    ∃ t res n, MovesRowIn cfg alloc inc tables row t res ∧
      n = (if res = .SUCCESS then (t.row row.2).lmeta.scc_data.map (row, ·) else none) ∧
      (callbacks cfg alloc).move_from_partition_to_shared_region row inc tables
        = some (Function.update tables row.1 t, res, n) := by
  obtain ⟨t, res, hmove⟩ :=
    @Table.exists_move_from_partition_to_shared_region _ _ _ _ row.2 cfg row.1 alloc inc
      (tables row.1)
  obtain ⟨hkeys, -, hmem, r, hfills, hr, hrep⟩ :=
    Table.move_from_partition_to_shared_region_replaces (hwf row) halloc hmove
  refine ⟨{ t with allocated := alloc.smeta.toList ++ (tables row.1).allocated }, res, _,
    ⟨hkeys, rfl, hmem, r, hfills, hr, hrep.row, hrep.other⟩, rfl, ?_⟩
  simp only [callbacks, hmove, map_some]

theorem MovesRowIn.places {inc : Bool} {res : migration_result}
    (h : MovesRowIn cfg alloc inc tables row t res) :
    Places row (placed tables) (placed (Function.update tables row.1 t)) res
      (if res = .SUCCESS then (t.row row.2).lmeta.scc_data.map (row, ·) else none) := by
  obtain ⟨r, hfills, -, hrep⟩ := h.fills
  have hplaced := placed_update hrep
  have hself : placed tables row = (rowOf tables row).block := rfl
  rcases hfills.block with ⟨rfl, hnone, hblock, hsome⟩ | ⟨hres, hblock⟩
  · obtain ⟨o, ho⟩ := isSome_iff_exists.mp hsome
    have hdata : (t.row row.2).lmeta.scc_data = some o := by
      rw [hrep.row.lmeta, ← hblock, ho]
    rw [if_pos rfl, hdata]
    rw [ho] at hplaced
    exact .success (hself.trans hnone) hplaced
  · rw [hblock, ← hself, update_eq_self] at hplaced
    cases res with
    | SUCCESS => exact absurd rfl hres
    | FAIL_OOM => exact .outOfMemory hplaced
    | FAIL_ALREADY_IN_CXL => exact .already hplaced

theorem MovesRowIn.rowsWellFormed {inc : Bool} {res : migration_result}
    (h : MovesRowIn cfg alloc inc tables row t res) (hwf : RowsWellFormed tables) :
    RowsWellFormed (Function.update tables row.1 t) := by
  obtain ⟨r, -, hr, hrep⟩ := h.fills
  exact hwf.update hrep hr

theorem callbacks_takesAway : TakesAway RowsWellFormed placed
    (callbacks cfg alloc : Callbacks (T → Table K α) (T × K) ((T × K) × Word)) := by
  intro tables row hwf hsome
  have htakes := @Table.move_from_shared_region_to_partition_takesOut T K α _ (tables row.1) row.2
    cfg row.1 (hwf row)
  change RowsWellFormed (Function.update tables row.1
      ((tables row.1).move_from_shared_region_to_partition cfg row.1 row.2).1) ∧
    placed (Function.update tables row.1
      ((tables row.1).move_from_shared_region_to_partition cfg row.1 row.2).1)
      = if ((tables row.1).move_from_shared_region_to_partition cfg row.1 row.2).2
        then Function.update (placed tables) row none else placed tables
  generalize ((tables row.1).move_from_shared_region_to_partition cfg row.1 row.2).1 = t at htakes
  generalize ((tables row.1).move_from_shared_region_to_partition cfg row.1 row.2).2 = b at htakes
  cases htakes with
  | inUse h =>
    refine ⟨hwf.update (h.replaces_self row.2) (hwf row), ?_⟩
    rw [placed_update (h.replaces_self row.2)]
    exact update_eq_self row (placed tables)
  | absent h hm =>
    have hmigrated := (hwf row).migrated_iff.mpr hsome
    rw [rowOf, hm] at hmigrated
    cases hmigrated
  | leaves _ _ hleaves hr h _ _ =>
    refine ⟨hwf.update h hr, ?_⟩
    rw [placed_update h, block_of_not_migrated hleaves.migrated]
    rfl

theorem callbacks_deletes (cfg : PartitionConfig T) (alloc : Allocation α)
    (hwf : RowsWellFormed tables) (is_delete_local : Bool) (hkey : row.2 ∈ (tables row.1).keys) :
    (callbacks cfg alloc).delete_and_update_next_key_info row is_delete_local tables
        = (Function.update tables row.1
            ((tables row.1).delete_and_update_next_key_info row.2 is_delete_local),
          ⟨true, (placed tables row).isSome, (placed tables row).map (row, ·)⟩) ∧
      placed (Function.update tables row.1
          ((tables row.1).delete_and_update_next_key_info row.2 is_delete_local))
        = Function.update (placed tables) row none ∧
      RowsWellFormed (Function.update tables row.1
        ((tables row.1).delete_and_update_next_key_info row.2 is_delete_local)) := by
  obtain ⟨-, -, r, he, hrep⟩ :=
    Table.delete_and_update_next_key_info_replaces hkey is_delete_local
  refine ⟨?_, ?_, ?_⟩
  · simp only [callbacks, if_pos hkey]
    congr 1
    cases hm : (rowOf tables row).lmeta.is_migrated with
    | true =>
      rw [placed, (hwf row).block hm]
      simp
    | false =>
      rw [placed, block_of_not_migrated hm]
      simp
  · rw [placed_update hrep, block_of_not_migrated (is_migrated_delete _ _)]
  · exact hwf.update hrep (wellFormed_delete ((hwf row).editsBits he) _)

end Partition

end Tigon.TwoPLPasha
