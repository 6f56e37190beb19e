import Mathlib.Data.Fintype.Basic
import Tigon.Pasha.PolicyClock.Eviction
import Tigon.Pasha.PolicyLRU.Eviction
import Tigon.TwoPLPasha.MigrationSystem.Rows

namespace Tigon.TwoPLPasha

open Function RowState Tigon.Library
open Tigon.Pasha (ClockTracker LRUTracker PolicyClock.SweepsOut PolicyClock.clean_of_sweepsOut
  PolicyClock.sweepsOut_iff_clean PolicyLRU.leastRecent PolicyLRU.move_row_out
  PolicyLRU.move_row_out_takes_least_recent)
open Tigon.Pasha.MigrationManager (Callbacks View Evicts Enumerates)

namespace RowState

variable {α : Type} {r r' : RowState α}

def references (r : RowState α) : Nat := (r.sccOf r.lmeta.migrated_row).ref_cnt.toNat

theorem EditsBits.references (he : EditsBits r r') : r'.references = r.references := by
  rw [RowState.references, RowState.references, he.lmeta, he.sccOf]

theorem moveOut_snd (ctx : Context) (host : Host) (hm : r.lmeta.is_migrated = true) :
    (moveOut ctx host r).2 = decide (r.references = 0) := by
  rw [moveOut, if_pos hm, references]
  by_cases hcount : (r.sccOf r.lmeta.migrated_row).ref_cnt > 0
  · rw [if_pos hcount]
    simp only [Bool.false_eq, decide_eq_false_iff_not]
    bv_omega
  · rw [if_neg hcount]
    simp only [Bool.true_eq, decide_eq_true_eq]
    bv_omega

end RowState

namespace Table

variable {T K α : Type} [LinearOrder K] {t : Table K α} {key : K} {cfg : PartitionConfig T}
  {table : T}

theorem move_from_shared_region_to_partition_snd (hm : (t.row key).lmeta.is_migrated = true)
    (hkey : cfg.keepsNeighbours table = true → key ∈ t.keys) :
    (t.move_from_shared_region_to_partition cfg table key).2
      = decide ((t.row key).references = 0) := by
  rw [move_from_shared_region_to_partition]
  by_cases hkeeps : cfg.keepsNeighbours table = true
  · have he : RowState.EditsBits (t.row key) ((t.clearKeyReal key).row key) :=
      agrees_clearKeyReal.row key
    rw [if_pos hkeeps, move_from_btree_to_partition, if_pos (hkey hkeeps), ← he.references]
    exact moveOut_snd _ _ (by rw [he.lmeta]; exact hm)
  · rw [if_neg hkeeps]
    exact moveOut_snd _ _ hm

end Table

section Partition

open Table (TakesOut)

variable {T K α : Type} [DecidableEq T] [LinearOrder K]

-- Rows of tables with neighbours are migrated only while they are in the index.
structure Evictable (cfg : PartitionConfig T) (tables : T → Table K α) : Prop where
  wf : RowsWellFormed tables
  keys : ∀ row : T × K, cfg.keepsNeighbours row.1 = true → (placed tables row).isSome →
    row.2 ∈ (tables row.1).keys

def evictionView (cfg : PartitionConfig T) :
    View ((T → Table K α) × List (T × K)) (T × K) Word where
  inv s := Evictable cfg s.1
  placed s := placed s.1
  ref_cnt s row := (rowOf s.1 row).references
  log := Prod.snd

variable {cfg : PartitionConfig T} {alloc : Allocation α} {tables tables' : T → Table K α}
  {row : T × K} {log : List (T × K)} {t : Table K α}

theorem logged_move_out {success : Bool}
    (h : (tables row.1).move_from_shared_region_to_partition cfg row.1 row.2 = (t, success)) :
    (callbacks cfg alloc).logged.move_from_shared_region_to_partition row (tables, log)
      = ((update tables row.1 t, if success then log ++ [row] else log), success) := by
  simp only [Callbacks.logged, callbacks, h]

omit [LinearOrder K] in
theorem keys_update (hkeys : t.keys = (tables row.1).keys) (other : T) :
    (update tables row.1 t other).keys = (tables other).keys := by
  by_cases htable : other = row.1
  · rw [htable, update_self, hkeys]
  · rw [update_of_ne htable]

theorem Evictable.update {r : RowState α} (h : Evictable cfg tables)
    (hrep : Table.Replaces (tables row.1) t row.2 r) (hkeys : t.keys = (tables row.1).keys)
    (hr : r.WellFormed) (hblock : r.block.isSome → (placed tables row).isSome) :
    Evictable cfg (update tables row.1 t) := by
  refine ⟨h.wf.update hrep hr, ?_⟩
  intro other hkeeps hother
  rw [placed_update hrep] at hother
  rw [keys_update hkeys]
  apply h.keys other hkeeps
  by_cases hrow : other = row
  · subst hrow
    rw [update_self] at hother
    exact hblock hother
  · rwa [update_of_ne hrow] at hother

theorem evicts_callbacks (cfg : PartitionConfig T) (alloc : Allocation α) :
    Evicts (evictionView (K := K) cfg) (callbacks cfg alloc).logged := by
  have hmove : ∀ (tables : T → Table K α) (row : T × K), Evictable cfg tables →
      (placed tables row).isSome → ∃ t,
        (tables row.1).move_from_shared_region_to_partition cfg row.1 row.2
          = (t, decide ((rowOf tables row).references = 0)) ∧
        Table.TakesOut (tables row.1) t row.2 (decide ((rowOf tables row).references = 0)) := by
    intro tables row h hsome
    have hsnd := @Table.move_from_shared_region_to_partition_snd T K α _ (tables row.1) row.2 cfg
      row.1 ((h.wf row).migrated_iff.mpr hsome) fun hkeeps => h.keys row hkeeps hsome
    have htakes := @Table.move_from_shared_region_to_partition_takesOut T K α _ (tables row.1)
      row.2 cfg row.1 (h.wf row)
    rw [hsnd] at htakes
    exact ⟨_, Prod.ext rfl hsnd, htakes⟩
  constructor
  · rintro ⟨tables, log⟩ row hinv hsome hpos
    obtain ⟨t, hres, htakes⟩ := hmove tables row hinv hsome
    have hused : (rowOf tables row).references ≠ 0 := Nat.ne_of_gt hpos
    rw [decide_eq_false hused] at hres htakes
    obtain ⟨ha⟩ := htakes
    have hrep := ha.replaces_self row.2
    have hplaced : placed (update tables row.1 t) = placed tables := by
      rw [placed_update hrep]
      exact update_eq_self row (placed tables)
    refine ⟨_, logged_move_out hres, hinv.update hrep ha.keys (hinv.wf row) id, ?_⟩
    refine ⟨by simp [evictionView], .nil, by simp, fun other => ?_, fun other _ => ?_⟩
    · simpa [evictionView] using congrFun hplaced other
    · by_cases hrow : other = row
      · subst hrow
        exact (rowOf_self hrep).references
      · exact (rowOf_other hrep hrow).references
  · rintro ⟨tables, log⟩ row hinv hsome hzero
    obtain ⟨t, hres, htakes⟩ := hmove tables row hinv hsome
    have hfree : (rowOf tables row).references = 0 := hzero
    rw [decide_eq_true hfree] at hres htakes
    cases htakes with
    | absent _ hnot =>
      have hm := (hinv.wf row).migrated_iff.mpr hsome
      rw [rowOf, hnot] at hm
      cases hm
    | leaves _ _ hleaves hr hrep hkeys _ =>
      have hnone := block_of_not_migrated hleaves.migrated
      have hplaced := placed_update hrep
      rw [hnone] at hplaced
      refine ⟨_, logged_move_out hres, hinv.update hrep hkeys hr (by simp [hnone]), ?_⟩
      refine ⟨by simp [evictionView], by simp, ?_, fun other => ?_, fun other hother => ?_⟩
      · intro other hother
        rw [List.mem_singleton.mp hother]
        exact ⟨hsome, hzero⟩
      · have hother := congrFun hplaced other
        by_cases hrow : other = row
        · subst hrow
          simpa [evictionView] using hother
        · simpa [evictionView, hrow] using hother
      · by_cases hrow : other = row
        · subst hrow
          simp [evictionView, hplaced] at hother
        · exact (rowOf_other hrep hrow).references

end Partition

section TwoRows

def twoRowsMap : PartitionConfig (Fin 1) := ⟨⟨true, true⟩, false, fun _ => .HASHMAP, 0⟩

def migratedRow (ref_cnt : BitVec 8) : RowState Bool :=
  ⟨{ is_valid := true
     is_migrated := true
     is_data_modified_since_moved_out := false
     migrated_row := 8
     scc_data := some 64 },
    true, fun _ => .construct 64, fun _ => ⟨0, 1, ref_cnt, true⟩, some 8⟩

def migratedRows (ref_cnt : Fin 2 → BitVec 8) : Fin 1 → Table (Fin 2) Bool :=
  fun _ => ⟨Finset.univ, fun k => migratedRow (ref_cnt k), [8]⟩

def firstInUse : Fin 2 → BitVec 8 := fun k => if k = 0 then 1 else 0

def clockOfTwo (second_chance : (Fin 1 × Fin 2) × Word → UInt8) :
    ClockTracker (Fin 1 × Fin 2) ((Fin 1 × Fin 2) × Word) :=
  ⟨⟨some 0, some 1, fun i => if i = 1 then some 0 else none,
    fun i => if i = 0 then some 1 else none⟩,
    [⟨(0, 0), some ((0, 0), 64)⟩, ⟨(0, 1), some ((0, 1), 64)⟩], none, second_chance⟩

def lruOfTwo : LRUTracker (Fin 1 × Fin 2) ((Fin 1 × Fin 2) × Word) :=
  ⟨⟨some ((0, 0), 64), some ((0, 1), 64),
      fun n => if n = ((0, 1), 64) then some ((0, 0), 64) else none,
      fun n => if n = ((0, 0), 64) then some ((0, 1), 64) else none⟩,
    fun n => some n.1, none⟩

variable (ref_cnt : Fin 2 → BitVec 8)

theorem evictable_migratedRows : Evictable twoRowsMap (migratedRows ref_cnt) := by
  refine ⟨fun row => ⟨?_, ?_, rfl⟩, nofun⟩
  · intro o ho
    obtain rfl := Option.some.inj ho
    decide
  · intro _
    change some (64 : Word) = some (TwoPLPashaMetadataShared.construct 64).fields.scc_data
    rw [TwoPLPashaMetadataShared.fields_construct (by decide)]

theorem enumerates_migratedRows :
    Enumerates [(((0 : Fin 1), (0 : Fin 2)), (64 : Word)), ((0, 1), 64)]
      (placed (migratedRows ref_cnt)) := by
  refine ⟨by decide, ?_⟩
  rintro ⟨⟨table, key⟩, o⟩
  have hplaced : placed (migratedRows ref_cnt) (table, key) = some 64 := rfl
  rw [hplaced]
  match table, key with
  | 0, 0 | 0, 1 => simp [eq_comm]

theorem clock_lists_migratedRows (second_chance : (Fin 1 × Fin 2) × Word → UInt8) :
    (clockOfTwo second_chance).Lists (placed (migratedRows ref_cnt))
      [(0, (0, 0), 64), (1, (0, 1), 64)] := by
  refine ⟨⟨rfl, rfl, ?_, ?_, by decide⟩, enumerates_migratedRows ref_cnt, ?_, nofun⟩
  · simp [clockOfTwo, Linked]
  · simp [clockOfTwo, Linked]
  · simp [clockOfTwo]

theorem lru_lists_migratedRows :
    lruOfTwo.Lists (placed (migratedRows ref_cnt)) [((0, 0), 64), ((0, 1), 64)] := by
  refine ⟨⟨rfl, rfl, ?_, ?_, by decide⟩, enumerates_migratedRows ref_cnt, fun _ _ => rfl⟩
  · simp [lruOfTwo, Linked]
  · simp [lruOfTwo, Linked]

-- Two rows that nobody uses, both with a clear flag: the second one stays.
theorem clock_passes_over_second :
    ∃ (s : (Fin 1 → Table (Fin 2) Bool) × List (Fin 1 × Fin 2))
      (t : ClockTracker (Fin 1 × Fin 2) ((Fin 1 × Fin 2) × Word))
      (l : List (Nat × (Fin 1 × Fin 2) × Word)),
      Evictable twoRowsMap s.1 ∧ t.cursor = none ∧ t.Lists (placed s.1) l ∧
      ¬ PolicyClock.SweepsOut (evictionView twoRowsMap)
        (callbacks twoRowsMap ⟨none, none⟩).logged (fun _ => false) s t l := by
  have hinv : (evictionView twoRowsMap).inv (migratedRows fun _ => 0, []) :=
    evictable_migratedRows _
  have hlists := clock_lists_migratedRows (fun _ => 0) fun _ => 0
  refine ⟨(migratedRows fun _ => 0, []), clockOfTwo fun _ => 0, _, hinv, rfl, hlists,
    fun h => ?_⟩
  rcases PolicyClock.clean_of_sweepsOut (evicts_callbacks twoRowsMap ⟨none, none⟩) hinv rfl hlists
    h with h | ⟨hlast, -⟩
  · have hdue := h ⟨false, false, true⟩ (by decide)
    cases hdue
  · cases hlast

-- The first row is in use and the second one is not: the second one leaves.
theorem clock_takes_second :
    PolicyClock.SweepsOut (evictionView twoRowsMap) (callbacks twoRowsMap ⟨none, none⟩).logged
      (fun _ => false) (migratedRows firstInUse, []) (clockOfTwo fun _ => 0)
      [(0, (0, 0), 64), (1, (0, 1), 64)] := by
  have hinv : (evictionView twoRowsMap).inv (migratedRows firstInUse, []) :=
    evictable_migratedRows _
  refine (PolicyClock.sweepsOut_iff_clean _ _ (evicts_callbacks twoRowsMap ⟨none, none⟩) _ _ _
    hinv rfl (clock_lists_migratedRows firstInUse _)).mpr (.once ?_) _
  decide

theorem lru_takes_second :
    ∃ fuel k s' t' ret, (∀ more, PolicyLRU.move_row_out
        (callbacks twoRowsMap ⟨none, none⟩).logged (fun _ => false) (fuel + more)
        (migratedRows firstInUse, []) lruOfTwo = .ok (s', t', ret)) ∧
      k = 1 ∧ (evictionView twoRowsMap).Takes (migratedRows firstInUse, []) s' [(0, 1)] ∧
      t'.Lists (placed s'.1) [((0, 0), 64)] := by
  have hinv : (evictionView twoRowsMap).inv (migratedRows firstInUse, []) :=
    evictable_migratedRows _
  obtain ⟨fuel, k, s', t', ret, hrun, hcount, htakes, -, hlists, hleft⟩ :=
    PolicyLRU.move_row_out_takes_least_recent _ _ (evicts_callbacks twoRowsMap ⟨none, none⟩)
      (fun _ => false) _ _ _ hinv rfl (lru_lists_migratedRows firstInUse)
  have hleast : PolicyLRU.leastRecent (evictionView twoRowsMap) (migratedRows firstInUse, [])
      [((0, 0), 64), ((0, 1), 64)] k = ([(0, 1)] : List (Fin 1 × Fin 2)).take k := by
    unfold PolicyLRU.leastRecent
    rw [List.map_take]
    rfl
  match k with
  | 0 =>
    have hpos := hleft rfl ((0, 1), 64) (by decide)
    rw [htakes.ref_cnt (0, 1) (by rw [htakes.placed]; rfl)] at hpos
    exact absurd hpos (by decide)
  | 1 => exact ⟨fuel, 1, s', t', ret, hrun, rfl, htakes, hlists⟩
  | k + 2 =>
    rw [hleast] at hcount
    simp at hcount

end TwoRows

end Tigon.TwoPLPasha
