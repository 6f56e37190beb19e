import Tigon.TwoPLPasha.MigrationSystem.Eviction

namespace Tigon.TwoPLPasha

open Function Option RowState Table TwoPLPashaSharedDataSCC Tigon.Library
open RowState (EditsBits FillsAs)

-- One table, with the number of references that were taken on each row and not given back.
structure ReferenceSystem (K α : Type) where
  table : Table K α
  outstanding : K → Nat

inductive ReferenceLabel (K α : Type)
  | move_in (key : K) (alloc : Allocation α) (inc_ref_cnt : Bool)
  | get_migrated_row (key : K)
  | release_migrated_row (key : K)
  | move_out (key : K)
deriving DecidableEq

namespace ReferenceSystem

variable {T K α : Type} [LinearOrder K]

def add (s : ReferenceSystem K α) (key : K) (more : Bool) : K → Nat :=
  update s.outstanding key (s.outstanding key + more.toNat)

def step (cfg : PartitionConfig T) (table : T) (s : ReferenceSystem K α) :
    ReferenceLabel K α → Option (ReferenceSystem K α)
  | .move_in key alloc inc_ref_cnt =>
    if s.table.admits alloc then
      (s.table.move_from_partition_to_shared_region cfg table alloc inc_ref_cnt key).map
        fun (t, res) => ⟨t, s.add key (inc_ref_cnt && decide (res ≠ .FAIL_OOM))⟩
    else none
  | .get_migrated_row key =>
    match (s.table.row key).cxl with
    | none => some s
    | some migrated_row =>
      let (r, res) := (s.table.row key).get_migrated_row_latched migrated_row true
      some ⟨s.table.onRow key fun _ => r, s.add key res.isSome⟩
  -- only what was taken is given back; without an entry in the index the pointer is null
  | .release_migrated_row key =>
    match (s.table.row key).cxl, s.outstanding key with
    | some migrated_row, n + 1 =>
      some ⟨s.table.onRow key fun r => r.decrease_reference_count_via_ptr migrated_row,
        update s.outstanding key n⟩
    | _, _ => none
  | .move_out key =>
    some { s with table := (s.table.move_from_shared_region_to_partition cfg table key).1 }

def AllocatesZeroed (_ : ReferenceSystem K α) : ReferenceLabel K α → Prop
  | .move_in _ alloc _ => ∀ b ∈ alloc.scc, b.2.ref_cnt = 0
  | _ => True

omit [LinearOrder K] in
instance (s : ReferenceSystem K α) (e : ReferenceLabel K α) : Decidable (s.AllocatesZeroed e) := by
  cases e <;> unfold AllocatesZeroed <;> infer_instance

end ReferenceSystem

namespace RowState

variable {α : Type} {r r' : RowState α} {n : Nat} {ctx : Context} {alloc : Allocation α}

-- The uint8_t counts the references; a block that is kept for the next move-in counts none.
structure Counted (r : RowState α) (n : Nat) : Prop where
  wf : r.WellFormed
  migrated : r.lmeta.is_migrated = true → r.references = n % 256
  kept : r.lmeta.is_migrated = false → n % 256 = 0 ∧
    ∀ o ∈ r.lmeta.scc_data, (r.scc o).ref_cnt = 0

theorem Counted.editsBits (h : r.Counted n) (he : EditsBits r r') : r'.Counted n := by
  refine ⟨h.wf.editsBits he, ?_, ?_⟩
  · rw [he.lmeta, he.references]
    exact h.migrated
  · rw [he.lmeta, he.scc]
    exact h.kept

theorem references_onScc (g : TwoPLPashaSharedDataSCC α → TwoPLPashaSharedDataSCC α) :
    (r.onScc r.lmeta.migrated_row g).references
      = (g (r.sccOf r.lmeta.migrated_row)).ref_cnt.toNat := by
  simp [references, onScc, sccOf]

theorem Counted.onScc {m : Nat} (h : r.Counted n) (hm : r.lmeta.is_migrated = true)
    {g : TwoPLPashaSharedDataSCC α → TwoPLPashaSharedDataSCC α}
    (hg : (g (r.sccOf r.lmeta.migrated_row)).ref_cnt.toNat = m % 256) :
    (r.onScc r.lmeta.migrated_row g).Counted m := by
  refine ⟨wellFormed_onScc h.wf g, ?_, ?_⟩
  · intro _
    rw [references_onScc, hg]
  · intro hnot
    rw [lmeta_onScc, hm] at hnot
    cases hnot

theorem Counted.count_eq_zero {m : BitVec 8} (h : r.Counted n) (hm : r.lmeta.is_migrated = false)
    (hzero : ∀ b ∈ alloc.scc, b.2.ref_cnt = 0) (hcount : r.countForMoveIn ctx alloc = some m) :
    m = 0 := by
  rw [countForMoveIn, if_neg (by simp [hm]), sccForMoveIn] at hcount
  split at hcount
  · rename_i o hdata _
    obtain rfl := some.inj hcount
    exact (h.kept hm).2 o hdata
  · obtain ⟨⟨r', o⟩, hp, rfl⟩ := map_eq_some_iff.mp hcount
    obtain ⟨b, hb, hpair⟩ := map_eq_some_iff.mp hp
    cases hpair
    simp only [update_self]
    exact hzero b hb

theorem FillsAs.references {inc : Bool} (h : FillsAs ctx alloc inc r r' .SUCCESS)
    (hwf : r'.WellFormed) :
    ∃ m, r.countForMoveIn ctx alloc = some m ∧
      r'.references = (if inc then m + 1 else m).toNat := by
  cases h with
  | @success p o m hm hp hcount hmigrated hblock hcxl hsmeta hstale hscc href =>
    refine ⟨m, hcount, ?_⟩
    have hrow : r'.lmeta.migrated_row = p := by
      have hindex := hwf.cxl
      rw [hcxl, hmigrated, if_pos rfl] at hindex
      exact (some.inj hindex).symm
    rw [RowState.references, sccOf, hrow, hsmeta, href]

theorem Counted.fills {inc : Bool} {res : migration_result} (h : r.Counted n)
    (hfills : FillsAs ctx alloc inc r r' res) (hwf : r'.WellFormed)
    (hzero : ∀ b ∈ alloc.scc, b.2.ref_cnt = 0) :
    r'.Counted (n + (inc && decide (res ≠ .FAIL_OOM)).toNat) := by
  cases res with
  | SUCCESS =>
    obtain ⟨m, hcount, href⟩ := hfills.references hwf
    cases hfills with
    | success hm _ _ hmigrated =>
      obtain rfl := h.count_eq_zero hm hzero hcount
      have hnone := (h.kept hm).1
      refine ⟨hwf, fun _ => ?_, fun hnot => ?_⟩
      · rw [href]
        cases inc with
        | false => simp [hnone]
        | true =>
          simp only [if_true, ne_eq, reduceCtorEq, not_false_eq_true, decide_true,
            Bool.and_self, Bool.toNat_true]
          have hone : (0 + 1 : BitVec 8).toNat = 1 := rfl
          rw [hone]
          omega
      · rw [hmigrated] at hnot
        cases hnot
  | FAIL_ALREADY_IN_CXL =>
    cases hfills with
    | already hm hr' =>
      subst hr'
      cases inc with
      | false => simpa using h
      | true =>
        apply h.onScc hm
        have href := h.migrated hm
        rw [references] at href
        simp only [inc_ref_cnt, BitVec.toNat_add, href]
        simp
  | FAIL_OOM =>
    cases hfills with
    | outOfMemory hr' =>
      subst hr'
      simpa using h

theorem moveOut_keeps (ctx : Context) (host : Host) (r : RowState α) :
    (moveOut ctx host r).1.lmeta.scc_data = r.lmeta.scc_data ∧
      ∀ o, ((moveOut ctx host r).1.scc o).ref_cnt = (r.scc o).ref_cnt := by
  rw [moveOut]
  split
  · split
    · exact ⟨rfl, fun _ => rfl⟩
    · refine ⟨rfl, fun o => ?_⟩
      simp only [uninstallShared, onScc]
      by_cases ho : o = ((((r.prepare_read host r.lmeta.migrated_row).onSmeta r.lmeta.migrated_row
          fun m => m.clear_is_data_modified_since_moved_in).smeta
            r.lmeta.migrated_row).get_scc_data)
      · rw [ho, update_self]
        rfl
      · rw [update_of_ne ho]
        rfl
  · exact ⟨rfl, fun _ => rfl⟩

theorem Counted.moveOut (h : r.Counted n) (ctx : Context) (host : Host) :
    (moveOut ctx host r).1.Counted n := by
  obtain ⟨hdata, hcounts⟩ := moveOut_keeps ctx host r
  rcases moveOut_leaves ctx host h.wf with hmove | ⟨hmove, -⟩ | ⟨r', hmove, hleaves, hwf, hm, hzero⟩
  · rw [hmove]
    exact h
  · rw [hmove]
    exact h
  · rw [hmove] at hdata hcounts ⊢
    have hnone := h.migrated hm
    rw [references, hzero] at hnone
    refine ⟨hwf, fun hnot => ?_, fun _ => ⟨hnone.symm, fun o ho => ?_⟩⟩
    · rw [hleaves.migrated] at hnot
      cases hnot
    · rw [hcounts]
      rw [hdata, ← if_pos hm (t := r.lmeta.scc_data) (e := none)] at ho
      have hblock := h.wf.block hm
      rw [block] at hblock
      rw [hblock] at ho
      obtain rfl := some.inj ho
      apply BitVec.eq_of_toNat_eq
      exact hzero

end RowState

namespace ReferenceSystem

variable {T K α : Type} [LinearOrder K] {cfg : PartitionConfig T} {table : T}
  {s s' : ReferenceSystem K α} {t t' : Table K α} {key : K} {n : K → Nat}

-- The counts are right, and in a table with neighbours only rows of the index are migrated.
structure Counts (cfg : PartitionConfig T) (table : T) (t : Table K α) (n : K → Nat) : Prop where
  row : ∀ k, (t.row k).Counted (n k)
  keys : cfg.keepsNeighbours table = true → ∀ k, (t.row k).lmeta.is_migrated = true → k ∈ t.keys

theorem Counts.replace {r : RowState α} {m : Nat} (h : Counts cfg table t n)
    (hrep : Table.Replaces t t' key r) (hr : r.Counted m) (hkeys : t'.keys = t.keys)
    (hmem : r.lmeta.is_migrated = true → cfg.keepsNeighbours table = true → key ∈ t.keys) :
    Counts cfg table t' (update n key m) := by
  refine ⟨fun k => ?_, fun hkeeps k hm => ?_⟩
  · by_cases hk : k = key
    · subst hk
      rw [update_self]
      exact hr.editsBits hrep.row
    · rw [update_of_ne hk]
      exact (h.row k).editsBits (hrep.other k hk)
  · rw [hkeys]
    by_cases hk : k = key
    · subst hk
      rw [hrep.row.lmeta] at hm
      exact hmem hm hkeeps
    · rw [(hrep.other k hk).lmeta] at hm
      exact h.keys hkeeps k hm

theorem Counts.onScc {m : Nat} {g : TwoPLPashaSharedDataSCC α → TwoPLPashaSharedDataSCC α}
    (h : Counts cfg table t n) {p : Ptr} (hp : (t.row key).cxl = some p)
    (hg : (g ((t.row key).sccOf p)).ref_cnt.toNat = m % 256) :
    Counts cfg table (t.onRow key fun r => r.onScc p g) (update n key m) := by
  obtain ⟨hm, rfl⟩ := (h.row key).wf.isCurrent_of_cxl hp
  refine h.replace (replaces_onRow t key _) ((h.row key).onScc hm hg) rfl ?_
  intro _ hkeeps
  exact h.keys hkeeps key hm

omit [LinearOrder K] in
theorem Counts.references (h : Counts cfg table t n) {p : Ptr} (hp : (t.row key).cxl = some p) :
    ((t.row key).sccOf p).ref_cnt.toNat = n key % 256 := by
  obtain ⟨hm, rfl⟩ := (h.row key).wf.isCurrent_of_cxl hp
  exact (h.row key).migrated hm

theorem Counts.moveOut (h : Counts cfg table t n) :
    Counts cfg table (t.move_from_shared_region_to_partition cfg table key).1 n := by
  have hmove : ∀ {t₁ : Table K α}, Table.Agrees t t₁ → Counts cfg table (t₁.onRow key fun _ =>
      (RowState.moveOut cfg.ctx cfg.coordinator_id (t₁.row key)).1) n := by
    intro t₁ ha
    have hr := ((h.row key).editsBits (ha.row key)).moveOut cfg.ctx cfg.coordinator_id
    have hrep := ha.replaces (replaces_onRow t₁ key
      (RowState.moveOut cfg.ctx cfg.coordinator_id (t₁.row key)).1)
    have hcounts := h.replace hrep hr ha.keys fun hm hkeeps => ?_
    · rwa [update_eq_self] at hcounts
    · -- a row that is migrated after a move-out was so before
      apply h.keys hkeeps key
      rw [← (ha.row key).lmeta]
      by_contra hnot
      rw [RowState.moveOut, if_neg hnot] at hm
      exact hnot hm
  rw [move_from_shared_region_to_partition]
  split
  · rw [move_from_btree_to_partition]
    split
    · exact hmove agrees_clearKeyReal
    · exact h
  · exact hmove ⟨rfl, rfl, fun _ => .rfl⟩

theorem counts_step {e : ReferenceLabel K α} (h : Counts cfg table s.table s.outstanding)
    (hok : s.AllocatesZeroed e) (hstep : step cfg table s e = some s') :
    Counts cfg table s'.table s'.outstanding := by
  cases e with
  | move_in key alloc inc =>
    obtain ⟨hadmits, hmap⟩ := ite_none_right_eq_some.mp hstep
    obtain ⟨⟨t, res⟩, hmove, rfl⟩ := map_eq_some_iff.mp hmap
    obtain ⟨hkeys, -, hmem, r, hfills, hwf, hrep⟩ :=
      move_from_partition_to_shared_region_replaces (h.row key).wf hadmits hmove
    refine h.replace hrep ((h.row key).fills hfills hwf hok) hkeys fun hm hkeeps => ?_
    by_cases hres : res = .FAIL_OOM
    · subst hres
      cases hfills with
      | outOfMemory hr =>
        subst hr
        exact h.keys hkeeps key hm
    · exact hmem hres hkeeps
  | get_migrated_row key =>
    simp only [step] at hstep
    split at hstep
    · cases hstep
      exact h
    · rename_i p hp
      cases hstep
      rcases latched_cases (s.table.row key) p true with
        ⟨-, -, hlatched⟩ | ⟨res, hlatched, hres⟩
      · rw [hlatched]
        apply h.onScc hp
        simp [inc_ref_cnt, h.references hp]
      · rw [hlatched]
        rw [Bool.and_true] at hres
        simp only [add, hres, Bool.toNat_false, add_zero, update_eq_self,
          onRow]
        exact h
  | release_migrated_row key =>
    simp only [step] at hstep
    split at hstep
    · rename_i p m hp hm
      cases hstep
      apply h.onScc hp
      have href := h.references hp
      rw [hm] at href
      simp only [dec_ref_cnt]
      bv_omega
    · cases hstep
  | move_out key =>
    cases hstep
    exact h.moveOut

def start (keys : Finset K) (smeta : Ptr → TwoPLPashaMetadataShared)
    (scc : Word → TwoPLPashaSharedDataSCC α) (value : K → α) : ReferenceSystem K α :=
  ⟨.load keys smeta scc value, fun _ => 0⟩

-- A move-in sets the count right exactly if its block has a count of 0 before. With new blocks
-- that do, nobody's reference is all it takes for a move-out.
theorem ref_cnt_after_move_in (cfg : PartitionConfig T) (table : T) :
    (∀ (t t' : Table K α) (key : K) (alloc : Allocation α) (inc_ref_cnt : Bool),
      (t.row key).WellFormed → t.admits alloc → (t.row key).lmeta.is_migrated = false →
      t.move_from_partition_to_shared_region cfg table alloc inc_ref_cnt key = some (t', .SUCCESS) →
      ((t'.row key).references = inc_ref_cnt.toNat ↔
        (t.row key).countForMoveIn cfg.ctx alloc = some 0)) ∧
    ∀ (keys : Finset K) (smeta : Ptr → TwoPLPashaMetadataShared)
      (scc : Word → TwoPLPashaSharedDataSCC α) (value : K → α) (s : ReferenceSystem K α) (key : K),
      Reach (step cfg table) AllocatesZeroed (start keys smeta scc value) s →
      s.outstanding key = 0 → (s.table.row key).lmeta.is_migrated = true →
      (s.table.move_from_shared_region_to_partition cfg table key).2 = true := by
  constructor
  · intro t t' key alloc inc hwf hadmits _ hmove
    obtain ⟨-, -, -, r, hfills, hr, hrep⟩ :=
      move_from_partition_to_shared_region_replaces hwf hadmits hmove
    obtain ⟨m, hcount, href⟩ := hfills.references hr
    rw [hrep.row.references, href, hcount, some.injEq]
    cases inc with
    | false =>
      simp only [Bool.false_eq_true, if_false, Bool.toNat_false]
      bv_omega
    | true =>
      simp only [if_true, Bool.toNat_true]
      bv_omega
  · intro keys smeta scc value s key hreach hnone hm
    have hstart : Counts cfg table (start keys smeta scc value).table fun _ => 0 :=
      ⟨fun k => ⟨⟨nofun, nofun, rfl⟩, nofun, fun _ => ⟨rfl, nofun⟩⟩, fun _ k hk => by cases hk⟩
    have hcounts := hreach.invariant (P := fun s => Counts cfg table s.table s.outstanding) hstart
      fun s e s' h hok hstep => counts_step h hok hstep
    rw [move_from_shared_region_to_partition_snd hm fun hkeeps => hcounts.keys hkeeps key hm,
      (hcounts.row key).migrated hm, hnone]
    rfl

section TwoRows

def twoRowsStart : ReferenceSystem (Fin 2) Bool :=
  start Finset.univ (fun _ => ⟨0⟩) (fun _ => ⟨0, 0, 0, false⟩) fun _ => true

-- Memory that was used before: its bytes are not 0.
theorem move_out_refused_without_reference :
    ∃ s, Reach (step twoRowsMap 0) (fun _ _ => True) twoRowsStart s ∧
      s.outstanding 0 = 0 ∧ (s.table.row 0).lmeta.is_migrated = true ∧
      (s.table.row 0).references = 7 ∧
      (s.table.move_from_shared_region_to_partition twoRowsMap 0 0).2 = false :=
  exists_reach_of_run _ _ _ [.move_in 0 ⟨some 8, some (64, ⟨0, 0, 7, false⟩)⟩ false] _
    (by decide +kernel)

def zeroed : Allocation Bool := ⟨some 8, some (64, ⟨0, 0, 0, false⟩)⟩

-- Zeroed memory: the row comes and goes twice, and its block stays.
theorem ref_cnt_after_move_in_twice :
    (∃ t', twoRowsStart.table.move_from_partition_to_shared_region twoRowsMap 0 zeroed true 0
        = some (t', .SUCCESS) ∧ (t'.row 0).references = 1) ∧
    ∃ s, Reach (step twoRowsMap 0) AllocatesZeroed twoRowsStart s ∧ s.outstanding 0 = 0 ∧
      (s.table.move_from_shared_region_to_partition twoRowsMap 0 0).2 = true := by
  have hsuccess : (twoRowsStart.table.move_from_partition_to_shared_region twoRowsMap 0 zeroed true
      0).map Prod.snd = some .SUCCESS := by
    decide +kernel
  obtain ⟨⟨t', res⟩, hmove, rfl⟩ := map_eq_some_iff.mp hsuccess
  obtain ⟨s, hreach, hnone, hm⟩ := exists_reach_of_run (step twoRowsMap 0) AllocatesZeroed
    twoRowsStart
    [.move_in 0 zeroed true, .get_migrated_row 0, .release_migrated_row 0, .move_out 0,
      .release_migrated_row 0, .move_out 0, .move_in 0 ⟨some 16, none⟩ false]
    (fun s => s.outstanding 0 = 0 ∧ (s.table.row 0).lmeta.is_migrated = true) (by decide +kernel)
  have hwf : (twoRowsStart.table.row 0).WellFormed := by
    refine ⟨fun o ho => ?_, fun hm => ?_, rfl⟩
    · cases ho
    · cases hm
  have hcount := ref_cnt_after_move_in (K := Fin 2) (α := Bool) twoRowsMap 0
  refine ⟨⟨t', hmove, (hcount.1 _ t' 0 zeroed true hwf ?_ rfl hmove).mpr rfl⟩, s, hreach, hnone,
    hcount.2 _ _ _ _ s 0 hreach hnone hm⟩
  decide +kernel

end TwoRows

end ReferenceSystem

end Tigon.TwoPLPasha
