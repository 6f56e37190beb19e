import Tigon.TwoPLPasha.RemoteInsert.Rows

namespace Tigon.TwoPLPasha

open Function Option RowState Tigon.Library

inductive Block
  | smeta (p : Ptr)
  | scc_data (o : Word)
deriving DecidableEq

-- The usage counters that rows count in, and the blocks handed out and not freed yet.
structure CXLMemory where
  size_total_hw_cc_usage : Word
  size_metadata_usage : Word
  size_data_usage : Word
  live : List Block
deriving DecidableEq

structure MemoryConfig where
  ctx : Context
  migration_policy_is_LRU : Bool
  scc_data_size : Word

inductive MemoryCategory
  | METADATA
  | DATA
deriving DecidableEq

def sizeofTwoPLPashaMetadataShared : Word := 8

namespace CXLMemory

-- The statistics are collected before the allocator is asked.
def cxlalloc_malloc_wrapper (cfg : MemoryConfig) (size : Word) (category : MemoryCategory)
    (cxlalloc_malloc : Option Block) (m : CXLMemory) : CXLMemory :=
  let m := match category with
    | .METADATA =>
      { m with
        size_total_hw_cc_usage := m.size_total_hw_cc_usage
          + if cfg.migration_policy_is_LRU then size + 24 else size
        size_metadata_usage := m.size_metadata_usage + size }
    | .DATA =>
      { m with
        size_total_hw_cc_usage := m.size_total_hw_cc_usage
          + if cfg.ctx.enable_scc = false then size else 0
        size_data_usage := m.size_data_usage + size }
  { m with live := cxlalloc_malloc.toList ++ m.live }

-- The block itself is retired and freed later.
def cxlalloc_free_wrapper (cfg : MemoryConfig) (block : Block) (size : Word)
    (category : MemoryCategory) (m : CXLMemory) : CXLMemory :=
  let m := match category with
    | .METADATA =>
      { m with
        size_total_hw_cc_usage := m.size_total_hw_cc_usage
          - if cfg.migration_policy_is_LRU then size + 24 else size
        size_metadata_usage := m.size_metadata_usage - size }
    | .DATA =>
      { m with
        size_total_hw_cc_usage := m.size_total_hw_cc_usage
          - if cfg.ctx.enable_scc = false then size else 0
        size_data_usage := m.size_data_usage - size }
  { m with live := m.live.erase block }

variable {α : Type}

def moveIn (cfg : MemoryConfig) (alloc : Allocation α) (r : RowState α) (m : CXLMemory) :
    CXLMemory :=
  if r.lmeta.is_migrated = false then
    let m := m.cxlalloc_malloc_wrapper cfg sizeofTwoPLPashaMetadataShared .METADATA
      (alloc.smeta.map .smeta)
    if alloc.smeta = none then m
    else if r.lmeta.scc_data = none ∨ cfg.ctx.enable_scc = false then
      m.cxlalloc_malloc_wrapper cfg cfg.scc_data_size .DATA (alloc.scc.map fun b => .scc_data b.1)
    else m
  else m

def moveOut (cfg : MemoryConfig) (r : RowState α) (m : CXLMemory) : CXLMemory :=
  if r.lmeta.is_migrated = true then
    if (r.sccOf r.lmeta.migrated_row).ref_cnt > 0 then m
    else
      let m := if cfg.ctx.enable_scc = false then
          m.cxlalloc_free_wrapper cfg (.scc_data (r.smeta r.lmeta.migrated_row).get_scc_data)
            cfg.scc_data_size .DATA
        else m
      m.cxlalloc_free_wrapper cfg (.smeta r.lmeta.migrated_row) sizeofTwoPLPashaMetadataShared
        .METADATA
  else m

end CXLMemory

namespace RowState

variable {α : Type} {r r' : RowState α} {cfg : MemoryConfig} {alloc : Allocation α}
  {m : CXLMemory} {host : Host} {inc : Bool} {res : migration_result}

def Reaches (r : RowState α) : Block → Prop
  | .smeta p => r.lmeta.is_migrated = true ∧ r.lmeta.migrated_row = p
  | .scc_data o => r.lmeta.scc_data = some o

-- A failed move-in leaves the row, its index entry and the counters alone, and no block behind
-- that nothing leads to.
structure NoEffect (r r' : RowState α) (m m' : CXLMemory) : Prop where
  row : r' = r
  live : ∀ b ∈ m'.live, b ∈ m.live ∨ r'.Reaches b
  metadata : m'.size_metadata_usage = m.size_metadata_usage
  data : m'.size_data_usage = m.size_data_usage
  total : m'.size_total_hw_cc_usage = m.size_total_hw_cc_usage

def HasMemory (ctx : Context) (alloc : Allocation α) (r : RowState α) : Prop :=
  r.lmeta.is_migrated = true ∨
    alloc.smeta ≠ none ∧
      (r.lmeta.scc_data ≠ none ∧ ctx.enable_scc = true ∨ alloc.scc.isSome = true)

instance (ctx : Context) (alloc : Allocation α) (r : RowState α) :
    Decidable (r.HasMemory ctx alloc) :=
  inferInstanceAs (Decidable (_ ∨ _ ∧ (_ ∧ _ ∨ _)))

theorem isSome_sccForMoveIn (ctx : Context) (alloc : Allocation α) (r : RowState α) :
    (r.sccForMoveIn ctx alloc).isSome = true ↔
      r.lmeta.scc_data ≠ none ∧ ctx.enable_scc = true ∨ alloc.scc.isSome = true := by
  cases hdata : r.lmeta.scc_data with
  | none => simp [sccForMoveIn, hdata]
  | some o =>
    cases hscc : ctx.enable_scc with
    | false | true => simp [sccForMoveIn, hdata, hscc]

theorem moveIn_migrated
    (h : move_from_hashmap_to_shared_region cfg.ctx host alloc inc r = some (r', res)) :
    res = .FAIL_OOM ∧ ¬ r.HasMemory cfg.ctx alloc ∧ r' = r ∨
      res ≠ .FAIL_OOM ∧ r.HasMemory cfg.ctx alloc ∧ r'.lmeta.is_migrated = true := by
  rw [move_from_hashmap_to_shared_region, moveIn] at h
  cases hm : r.lmeta.is_migrated with
  | true =>
    simp only [hm, Bool.true_eq_false, if_false, some.injEq, Prod.mk.injEq] at h
    obtain ⟨rfl, rfl⟩ := h
    refine .inr ⟨by simp, .inl hm, ?_⟩
    split
    · exact hm
    · exact hm
  | false =>
    simp only [hm, if_true] at h
    have hscc := isSome_sccForMoveIn cfg.ctx alloc r
    cases hp : alloc.smeta with
    | none =>
      simp only [hp, some.injEq, Prod.mk.injEq] at h
      exact .inl ⟨h.2.symm, by simp [HasMemory, hm, hp], h.1.symm⟩
    | some p =>
      simp only [hp] at h
      cases hblock : r.sccForMoveIn cfg.ctx alloc with
      | none =>
        simp only [hblock, some.injEq, Prod.mk.injEq] at h
        rw [hblock] at hscc
        refine .inl ⟨h.2.symm, ?_, h.1.symm⟩
        simp only [HasMemory, hm, Bool.false_eq_true, false_or, ← hscc]
        simp
      | some b =>
        simp only [hblock, map_eq_some_iff, Prod.mk.injEq] at h
        obtain ⟨r'', hinstall, rfl, rfl⟩ := h
        rw [hblock] at hscc
        refine .inr ⟨by simp, .inr ⟨by simp [hp], hscc.mp rfl⟩, ?_⟩
        rw [(editsBits_finish_write hinstall).lmeta]

theorem metadata_moveIn (hm : r.lmeta.is_migrated = false) :
    (m.moveIn cfg alloc r).size_metadata_usage
      = m.size_metadata_usage + sizeofTwoPLPashaMetadataShared := by
  simp only [CXLMemory.moveIn, if_pos hm]
  split
  · rfl
  · split
    · rfl
    · rfl

theorem moveOut_metadata (cfg : MemoryConfig) (host : Host) (r : RowState α) (m : CXLMemory) :
    (r.lmeta.is_migrated = true ∧ (moveOut cfg.ctx host r).1.lmeta.is_migrated = false ∧
      (m.moveOut cfg r).size_metadata_usage
        = m.size_metadata_usage - sizeofTwoPLPashaMetadataShared) ∨
    (moveOut cfg.ctx host r).1 = r ∧ m.moveOut cfg r = m := by
  rw [moveOut, CXLMemory.moveOut]
  by_cases hm : r.lmeta.is_migrated = true
  · rw [if_pos hm, if_pos hm]
    by_cases hcount : (r.sccOf r.lmeta.migrated_row).ref_cnt > 0
    · rw [if_pos hcount, if_pos hcount]
      exact .inr ⟨rfl, rfl⟩
    · rw [if_neg hcount, if_neg hcount]
      refine .inl ⟨hm, rfl, ?_⟩
      split
      · rfl
      · rfl
  · rw [if_neg hm, if_neg hm]
    exact .inr ⟨rfl, rfl⟩

theorem noEffect_iff (host : Host) (alloc : Allocation α) (inc : Bool) (r : RowState α)
    (m : CXLMemory) :
    (∀ r', move_from_hashmap_to_shared_region cfg.ctx host alloc inc r = some (r', .FAIL_OOM) →
      NoEffect r r' m (m.moveIn cfg alloc r)) ↔ r.HasMemory cfg.ctx alloc := by
  obtain ⟨r', res, hmove⟩ := @exists_moveIn α cfg.ctx host alloc inc id (fun _ => rfl) r
  rcases moveIn_migrated hmove with ⟨rfl, hnot, -⟩ | ⟨hres, hhas, -⟩
  · refine ⟨fun h => ?_, fun h => absurd h hnot⟩
    have hm : r.lmeta.is_migrated = false := eq_false_of_ne_true fun hm => hnot (.inl hm)
    have hsame := (h r' hmove).metadata
    rw [metadata_moveIn hm, sizeofTwoPLPashaMetadataShared] at hsame
    bv_omega
  · refine ⟨fun _ => hhas, fun _ r'' hfail => ?_⟩
    rw [move_from_hashmap_to_shared_region, hmove] at hfail
    simp only [some.injEq, Prod.mk.injEq] at hfail
    exact absurd hfail.2 hres

theorem live_of_failed
    (h : move_from_hashmap_to_shared_region cfg.ctx host alloc inc r = some (r', .FAIL_OOM)) :
    r' = r ∧ (m.moveIn cfg alloc r).live = (alloc.smeta.map .smeta).toList ++ m.live := by
  rcases moveIn_migrated h with ⟨-, hnot, hr⟩ | ⟨hres, -⟩
  · refine ⟨hr, ?_⟩
    have hm : r.lmeta.is_migrated = false := eq_false_of_ne_true fun hm => hnot (.inl hm)
    simp only [CXLMemory.moveIn, if_pos hm]
    split
    · rfl
    · rename_i hp
      split
      · have hscc : alloc.scc = none := by
          by_contra hsome
          exact hnot (.inr ⟨hp, .inr (isSome_iff_ne_none.mpr hsome)⟩)
        simp [CXLMemory.cxlalloc_malloc_wrapper, hscc]
      · rfl
  · exact absurd rfl hres

end RowState

structure MemorySystem (K α : Type) where
  rows : K → RowState α
  memory : CXLMemory

inductive MemoryLabel (K α : Type)
  | move_in (key : K) (alloc : Allocation α) (inc_ref_cnt : Bool)
  | move_out (key : K)
deriving DecidableEq

namespace MemorySystem

open RowState (move_from_hashmap_to_shared_region move_from_hashmap_to_partition NoEffect)

variable {K α : Type} [DecidableEq K] {cfg : MemoryConfig} {host : Host} {s s' : MemorySystem K α}

def step (cfg : MemoryConfig) (host : Host) (s : MemorySystem K α) :
    MemoryLabel K α → Option (MemorySystem K α)
  | .move_in key alloc inc_ref_cnt =>
    (move_from_hashmap_to_shared_region cfg.ctx host alloc inc_ref_cnt (s.rows key)).map
      fun (r, _) => ⟨update s.rows key r, s.memory.moveIn cfg alloc (s.rows key)⟩
  | .move_out key =>
    some ⟨update s.rows key (move_from_hashmap_to_partition cfg.ctx host (s.rows key)).1,
      s.memory.moveOut cfg (s.rows key)⟩

def AllocationsSucceed (cfg : MemoryConfig) (s : MemorySystem K α) : MemoryLabel K α → Prop
  | .move_in key alloc _ => (s.rows key).HasMemory cfg.ctx alloc
  | .move_out _ => True

omit [DecidableEq K] in
instance (cfg : MemoryConfig) (s : MemorySystem K α) (e : MemoryLabel K α) :
    Decidable (s.AllocationsSucceed cfg e) := by
  cases e <;> unfold AllocationsSucceed <;> infer_instance

def Balanced (base : Word) (s : MemorySystem K α) : Prop :=
  ∃ rows : Finset K, (∀ key, key ∈ rows ↔ (s.rows key).lmeta.is_migrated = true) ∧
    s.memory.size_metadata_usage
      = base + sizeofTwoPLPashaMetadataShared * BitVec.ofNat 64 rows.card

variable {base : Word} {key : K} {r : RowState α} {m : CXLMemory}

omit [DecidableEq K] in
theorem Balanced.stay (h : s.Balanced base)
    (hrows : ∀ k, (s'.rows k).lmeta.is_migrated = (s.rows k).lmeta.is_migrated)
    (hmetadata : s'.memory.size_metadata_usage = s.memory.size_metadata_usage) :
    s'.Balanced base := by
  obtain ⟨rows, hmem, husage⟩ := h
  refine ⟨rows, fun k => ?_, ?_⟩
  · rw [hmem, hrows]
  · rw [hmetadata, husage]

theorem migrated_update (r : RowState α) (k : K) :
    (update s.rows key r k).lmeta.is_migrated = true ↔
      if k = key then r.lmeta.is_migrated = true else (s.rows k).lmeta.is_migrated = true := by
  by_cases hk : k = key
  · subst hk
    simp
  · simp [hk]

theorem Balanced.enter (h : s.Balanced base) (hm : (s.rows key).lmeta.is_migrated = false)
    (hr : r.lmeta.is_migrated = true)
    (hmetadata : m.size_metadata_usage
      = s.memory.size_metadata_usage + sizeofTwoPLPashaMetadataShared) :
    Balanced base ⟨update s.rows key r, m⟩ := by
  obtain ⟨rows, hmem, husage⟩ := h
  have hnot : key ∉ rows := by
    simp [hmem, hm]
  refine ⟨insert key rows, fun k => ?_, ?_⟩
  · rw [migrated_update, Finset.mem_insert, hmem]
    by_cases hk : k = key
    · simp [hk, hr]
    · simp [hk]
  · rw [Finset.card_insert_of_notMem hnot, hmetadata, husage, BitVec.ofNat_add, BitVec.mul_add,
      BitVec.add_assoc]
    rfl

theorem Balanced.leave (h : s.Balanced base) (hm : (s.rows key).lmeta.is_migrated = true)
    (hr : r.lmeta.is_migrated = false)
    (hmetadata : m.size_metadata_usage
      = s.memory.size_metadata_usage - sizeofTwoPLPashaMetadataShared) :
    Balanced base ⟨update s.rows key r, m⟩ := by
  obtain ⟨rows, hmem, husage⟩ := h
  have hkey : key ∈ rows := (hmem key).mpr hm
  refine ⟨rows.erase key, fun k => ?_, ?_⟩
  · rw [migrated_update, Finset.mem_erase, hmem]
    by_cases hk : k = key
    · simp [hk, hr]
    · simp [hk]
  · have hcard := Finset.card_erase_add_one hkey
    rw [← hcard, BitVec.ofNat_add, BitVec.mul_add, ← BitVec.add_assoc] at husage
    rw [hmetadata, husage]
    exact BitVec.add_sub_cancel ..

theorem balanced_step {e : MemoryLabel K α} (h : s.Balanced base)
    (hok : s.AllocationsSucceed cfg e) (hstep : step cfg host s e = some s') :
    s'.Balanced base := by
  cases e with
  | move_in key alloc inc =>
    obtain ⟨⟨r, res⟩, hmove, rfl⟩ := map_eq_some_iff.mp hstep
    rcases moveIn_migrated hmove with ⟨-, hnot, -⟩ | ⟨-, -, hr⟩
    · exact absurd hok hnot
    · cases hm : (s.rows key).lmeta.is_migrated with
      | false => exact h.enter hm hr (metadata_moveIn hm)
      | true =>
        apply h.stay
        · intro k
          by_cases hk : k = key
          · subst hk
            simp [hm, hr]
          · simp [hk]
        · simp [CXLMemory.moveIn, hm]
  | move_out key =>
    simp only [step, some.injEq] at hstep
    subst hstep
    rcases moveOut_metadata cfg host (s.rows key) s.memory with
      ⟨hm, hr, hmetadata⟩ | ⟨hr, hmemory⟩
    · exact h.leave hm hr hmetadata
    · rw [move_from_hashmap_to_partition, hr, hmemory, update_eq_self]
      exact h

-- A move-in that fails has no effect exactly if it does not fail for memory. In runs in which
-- none does, the metadata in use is that of the migrated rows.
theorem failed_move_in_has_no_effect_iff (cfg : MemoryConfig) (host : Host) :
    (∀ (alloc : Allocation α) (inc_ref_cnt : Bool) (r : RowState α) (m : CXLMemory),
      (∀ r', move_from_hashmap_to_shared_region cfg.ctx host alloc inc_ref_cnt r
          = some (r', .FAIL_OOM) → NoEffect r r' m (m.moveIn cfg alloc r)) ↔
        r.HasMemory cfg.ctx alloc) ∧
    (∀ (alloc : Allocation α) (inc_ref_cnt : Bool) (r r' : RowState α) (m : CXLMemory),
      move_from_hashmap_to_shared_region cfg.ctx host alloc inc_ref_cnt r
          = some (r', .FAIL_OOM) →
        r' = r ∧ (m.moveIn cfg alloc r).live = (alloc.smeta.map .smeta).toList ++ m.live) ∧
    ∀ start s : MemorySystem K α, (∀ key, (start.rows key).lmeta.is_migrated = false) →
      Reach (step cfg host) (AllocationsSucceed cfg) start s →
      s.Balanced start.memory.size_metadata_usage := by
  refine ⟨?_, ?_, ?_⟩
  · intro alloc inc r m
    exact noEffect_iff host alloc inc r m
  · intro alloc inc r r' m h
    exact live_of_failed h
  · intro start s hstart hreach
    apply hreach.invariant
    · refine ⟨∅, fun key => ?_, ?_⟩
      · simp [hstart key]
      · simp
    · intro s e s' h hok hstep
      exact balanced_step h hok hstep

section OneRow

def oneRow : MemorySystem (Fin 1) Bool :=
  ⟨fun _ => .init (fun _ => ⟨0⟩) (fun _ => ⟨0, 0, 0, false⟩) true true, ⟨0, 0, 0, []⟩⟩

def oneRowConfig : MemoryConfig := ⟨⟨true, true⟩, false, 48⟩

-- There is memory for the metadata and none for the SCC data.
theorem failed_move_in_leaks :
    ∃ s, Reach (step oneRowConfig 0) (fun _ _ => True) oneRow s ∧
      (move_from_hashmap_to_shared_region oneRowConfig.ctx 0 ⟨some 8, none⟩ false
        (oneRow.rows 0)).map Prod.snd = some .FAIL_OOM ∧
      (s.rows 0).lmeta = (oneRow.rows 0).lmeta ∧ (s.rows 0).lmeta.is_migrated = false ∧
      s.memory = ⟨8, 8, 48, [.smeta 8]⟩ :=
  exists_reach_of_run _ _ _ [.move_in 0 ⟨some 8, none⟩ false] _ (by decide +kernel)

-- The row comes, goes and comes back into the block it has.
theorem failed_move_in_has_no_effect_again :
    (∀ r', move_from_hashmap_to_shared_region oneRowConfig.ctx 0
      ⟨some 8, some (64, ⟨0, 0, 0, true⟩)⟩
        false (oneRow.rows 0) = some (r', .FAIL_OOM) →
      NoEffect (oneRow.rows 0) r' oneRow.memory (oneRow.memory.moveIn oneRowConfig
        ⟨some 8, some (64, ⟨0, 0, 0, true⟩)⟩ (oneRow.rows 0))) ∧
    ∃ s, Reach (step oneRowConfig 0) (AllocationsSucceed oneRowConfig) oneRow s ∧
      s.memory.size_metadata_usage = 8 ∧ s.Balanced 0 := by
  have hmain := failed_move_in_has_no_effect_iff (K := Fin 1) (α := Bool) oneRowConfig 0
  obtain ⟨s, hreach, husage⟩ := exists_reach_of_run (step oneRowConfig 0)
    (AllocationsSucceed oneRowConfig) oneRow
    [.move_in 0 ⟨some 8, some (64, ⟨0, 0, 0, true⟩)⟩ false, .move_out 0,
      .move_in 0 ⟨some 16, none⟩ false]
    (fun s => s.memory.size_metadata_usage = 8) (by decide +kernel)
  refine ⟨(hmain.1 _ _ _ _).mpr ?_, s, hreach, husage, hmain.2.2 oneRow s (fun _ => rfl) hreach⟩
  decide +kernel

end OneRow

end MemorySystem

end Tigon.TwoPLPasha
