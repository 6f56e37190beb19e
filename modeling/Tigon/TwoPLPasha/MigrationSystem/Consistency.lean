import Tigon.Pasha.PolicyClock.Tracking
import Tigon.Pasha.PolicyLRU.Tracking
import Tigon.TwoPLPasha.MigrationSystem.References

namespace Tigon.TwoPLPasha

open Function List RowState Tigon.Library
open Tigon.Pasha (MigrationManager LRUTracker ClockTracker PolicyLRU.manager PolicyClock.manager)
open Tigon.Pasha.MigrationManager (Enumerates MovesOut)
open TwoPLPashaSharedDataSCC (valid_flag_index)

def RemoteCall.isAccessing {ρ : Type} [DecidableEq ρ] (row : ρ) : RemoteCall ρ → Bool
  | .accessing y _ => decide (y = row)
  | _ => false

namespace MigrationSystem

variable {T K α C P : Type} [DecidableEq T] [LinearOrder K] [DecidableEq C]

-- What a step does to the rows and to the threads, whatever the policy.
inductive Effect (cfg : PartitionConfig T) (s s' : MigrationSystem T K α C P) :
    MigrationLabel T K α C → Prop
  | moveIn {c : C} {row : T × K} {alloc : Allocation α} {inc : Bool} {t : Table K α}
      {res : migration_result} (hidle : s.calls c = .idle)
      (halloc : (s.tables row.1).admits alloc)
      (hmoves : MovesRowIn cfg alloc inc s.tables row t res)
      (htables : s'.tables = update s.tables row.1 t)
      (hcalls : s'.calls = update s.calls c (afterMoveIn row inc res)) :
      Effect cfg s s' (.move_row_in c row alloc inc)
  | notFound {c : C} {row : T × K} {inc : Bool} (htables : s'.tables = s.tables)
      (hcalls : s'.calls = s.calls) : Effect cfg s s' (.search c row inc)
  | found {c : C} {row : T × K} {inc : Bool} {p : Ptr} (hidle : s.calls c = .idle)
      (hcxl : (rowOf s.tables row).cxl = some p) (htables : s'.tables = s.tables)
      (hcalls : s'.calls = update s.calls c (.found row p inc)) :
      Effect cfg s s' (.search c row inc)
  | latched {c : C} {row : T × K} {p : Ptr} (hcall : s.calls c = .found row p true)
      (hvalid : ((rowOf s.tables row).sccOf p).valid = true)
      (htables : s'.tables = setRow s.tables row
        ((rowOf s.tables row).onScc p fun d => d.inc_ref_cnt))
      (hcalls : s'.calls = update s.calls c
        (.accessing row ((rowOf s.tables row).smeta p).get_scc_data)) :
      Effect cfg s s' (.latch c)
  | notLatched {c : C} {row : T × K} {p : Ptr} {inc : Bool} (hcall : s.calls c = .found row p inc)
      (htables : s'.tables = s.tables) (hcalls : s'.calls = update s.calls c .idle) :
      Effect cfg s s' (.latch c)
  | accessed {c : C} {row : T × K} {o : Word} (hcall : s.calls c = .accessing row o)
      (htables : s'.tables = s.tables)
      (hcalls : s'.calls = update s.calls c (.holding row)) :
      Effect cfg s s' (.access_row c)
  | releasing {c : C} {row : T × K} {p : Ptr} (hcall : s.calls c = .holding row)
      (hcxl : (rowOf s.tables row).cxl = some p) (htables : s'.tables = s.tables)
      (hcalls : s'.calls = update s.calls c (.releasing row p)) :
      Effect cfg s s' (.release_migrated_row c)
  | decreased {c : C} {row : T × K} {p : Ptr} (hcall : s.calls c = .releasing row p)
      (htables : s'.tables = setRow s.tables row
        ((rowOf s.tables row).decrease_reference_count_via_ptr p))
      (hcalls : s'.calls = update s.calls c .idle) :
      Effect cfg s s' (.decrease c)
  | invalidated {c : C} {row : T × K} {p : Ptr} (hcall : s.calls c = .holding row)
      (htables : s'.tables = setRow s.tables row
        ((rowOf s.tables row).onScc p fun d => d.clear_flag valid_flag_index))
      (hcalls : s'.calls = update s.calls c .idle) :
      Effect cfg s s' (.remote_modify_tuple_valid_bit c)
  | movedOut {under_budget : Nat → Bool} {fuel : Nat}
      (hmoves : MovesOut (callbacks cfg ⟨none, none⟩) s.tables s'.tables)
      (hcalls : s'.calls = s.calls) : Effect cfg s s' (.move_row_out under_budget fuel)
  | deleted {row : T × K} {is_delete_local : Bool}
      (hcan : canDelete cfg s.tables row is_delete_local)
      (htables : s'.tables = update s.tables row.1
        ((s.tables row.1).delete_and_update_next_key_info row.2 is_delete_local))
      (hcalls : s'.calls = s.calls) :
      Effect cfg s s' (.delete_specific_row_and_move_out row is_delete_local)

variable {cfg : PartitionConfig T} {s s' : MigrationSystem T K α C P}
  {l : MigrationLabel T K α C}

def countForLatch (tables : T → Table K α) : RemoteCall (T × K) → Option (BitVec 8)
  | .found row p true => some ((rowOf tables row).sccOf p).ref_cnt
  | _ => none

-- What the threads rely on survives a step, if the reference counts do not run over and no row is
-- deleted under a thread that is about to report its access.
def KeepsReferences (cfg : PartitionConfig T) (s : MigrationSystem T K α C P) :
    MigrationLabel T K α C → Prop
  | .move_row_in _ row alloc inc_ref_cnt =>
    inc_ref_cnt = true → (rowOf s.tables row).countForMoveIn cfg.ctx alloc ≠ some 255
  | .latch c => countForLatch s.tables (s.calls c) ≠ some 255
  | .delete_specific_row_and_move_out row _ => ∀ c, (s.calls c).isAccessing row = false
  | _ => True

instance [Fintype C] (cfg : PartitionConfig T) (s : MigrationSystem T K α C P)
    (l : MigrationLabel T K α C) :
    Decidable (KeepsReferences cfg s l) := by
  cases l <;> unfold KeepsReferences <;> infer_instance

omit [DecidableEq T] [LinearOrder K] in
theorem at_row {call : RemoteCall (T × K)} {row : T × K} (h : call.row? = some row) :
    ∀ y ∈ call.row?, y = row :=
  fun _ hy => (Option.some_inj.mp (h.symm.trans hy)).symm

theorem Effect.allAccounted (he : Effect cfg s s' l) (h : AllAccounted cfg s.tables s.calls)
    (hok : KeepsReferences cfg s l) : AllAccounted cfg s'.tables s'.calls := by
  cases he with
  | moveIn hidle halloc hmoves htables hcalls =>
    rw [htables, hcalls]
    exact h.moveIn hmoves halloc hidle hok
  | notFound htables hcalls =>
    rw [htables, hcalls]
    exact h
  | @found c row inc p hidle hcxl htables hcalls =>
    rw [htables, hcalls]
    refine h.setCall (by rw [hidle]; nofun) (at_row rfl) ?_ ?_
    · intro _
      obtain ⟨hm, hrow⟩ := (h row).wf.isCurrent_of_cxl hcxl
      refine ⟨(h row).cxl p hcxl, fun _ => ?_⟩
      rw [(h row).wf.block hm, hrow]
    · rw [hidle]
      exact Iff.rfl
  | latched hcall hvalid htables hcalls =>
    rw [htables, hcalls]
    refine h.setRow (at_row (by rw [hcall]; rfl))
      (at_row rfl) ?_
    rw [KeepsReferences, hcall] at hok
    exact (h _).latch hcall hvalid fun hfull => hok (congrArg some hfull)
  | @notLatched c row p inc hcall htables hcalls =>
    rw [htables, hcalls]
    refine h.setCall (show ∀ y ∈ (s.calls c).row?, y = row from at_row (by rw [hcall]; rfl))
      nofun trivial ?_
    rw [hcall]
    exact Iff.rfl
  | accessed hcall htables hcalls =>
    rw [htables, hcalls]
    refine h.setCall (at_row (by rw [hcall]; rfl))
      (at_row rfl) trivial ?_
    rw [hcall]
    exact Iff.rfl
  | @releasing c row p hcall hcxl htables hcalls =>
    rw [htables, hcalls]
    refine h.setCall (at_row (by rw [hcall]; rfl))
      (at_row rfl) ?_ ?_
    · intro _
      obtain ⟨hm, hrow⟩ := (h row).wf.isCurrent_of_cxl hcxl
      refine ⟨(h row).cxl p hcxl, fun o ho => ?_⟩
      rw [(h row).wf.block hm, hrow] at ho
      exact Option.some_inj.mp ho
    · rw [hcall]
      exact Iff.rfl
  | decreased hcall htables hcalls =>
    rw [htables, hcalls]
    refine h.setRow (at_row (by rw [hcall]; rfl)) nofun ?_
    exact (h _).decrease hcall
  | invalidated hcall htables hcalls =>
    rw [htables, hcalls]
    refine h.setRow (at_row (by rw [hcall]; rfl)) nofun ?_
    exact (h _).invalidate
  | movedOut hmoves hcalls =>
    rw [hcalls]
    exact h.movesOut hmoves
  | deleted hcan htables hcalls =>
    rw [htables, hcalls]
    refine h.delete hcan fun c o hcall => ?_
    have hidle := hok c
    rw [hcall, RemoteCall.isAccessing, decide_eq_false_iff_not] at hidle
    exact hidle rfl

section Policies

variable {manager : MigrationManager (T → Table K α) (T × K) ((T × K) × Word) P}
  {Tracks : P → (T × K → Option Word) → Prop}
  {Accessible : (T × K → Option Word) → (T × K) × Word → Prop}
  {Deletable : (T × K → Option Word) → T × K → Prop}

def Permits (Accessible : (T × K → Option Word) → (T × K) × Word → Prop)
    (Deletable : (T × K → Option Word) → T × K → Prop) (s : MigrationSystem T K α C P) :
    MigrationLabel T K α C → Prop
  | .access_row c => ∀ row o, s.calls c = .accessing row o → Accessible (placed s.tables) (row, o)
  | .delete_specific_row_and_move_out row _ => Deletable (placed s.tables) row
  | _ => True

theorem step_follows (hm : manager.Follows Tracks Accessible Deletable)
    (hwf : RowsWellFormed s.tables) (htracks : Tracks s.tracker (placed s.tables))
    (hpermits : Permits Accessible Deletable s l) (hstep : step manager cfg s l = some s') :
    s'.crashed = false ∧ RowsWellFormed s'.tables ∧ Tracks s'.tracker (placed s'.tables) ∧
      Effect cfg s s' l := by
  unfold step at hstep
  split at hstep
  · cases hstep
  rename_i hcrashed
  have hcrashed : s.crashed = false := eq_false_of_ne_true hcrashed
  cases l with
  | move_row_in c row alloc inc =>
    obtain ⟨⟨hidle, halloc, -⟩, hstep⟩ := Option.ite_none_right_eq_some.mp hstep
    obtain ⟨t, res, n, hmoves, rfl, hcallback⟩ := exists_movesRowIn cfg hwf halloc inc
    obtain ⟨p, hsection, htracks'⟩ := hm.move_row_in htracks hcallback hmoves.places
    rw [hsection] at hstep
    cases hstep
    exact ⟨hcrashed, hmoves.rowsWellFormed hwf, htracks', .moveIn hidle halloc hmoves rfl rfl⟩
  | search c row inc =>
    dsimp only at hstep
    split at hstep
    · rename_i hidle hcxl
      cases hstep
      exact ⟨hcrashed, hwf, htracks, .found hidle hcxl rfl rfl⟩
    · cases hstep
      exact ⟨hcrashed, hwf, htracks, .notFound rfl rfl⟩
    · cases hstep
  | latch c =>
    dsimp only at hstep
    split at hstep
    · rename_i row p inc hcall
      rcases (rowOf s.tables row).latched_cases p inc with
        ⟨hvalid, rfl, hlatch⟩ | ⟨res, hlatch, hres⟩
      · rw [hlatch] at hstep
        cases hstep
        have hplaced : placed (setRow s.tables row ((rowOf s.tables row).onScc p
            fun d => d.inc_ref_cnt)) = placed s.tables := placed_setRow rfl
        exact ⟨hcrashed, hwf.setRow (wellFormed_onScc (hwf row) _),
          hplaced.symm ▸ htracks, .latched hcall hvalid rfl rfl⟩
      · rw [hlatch] at hstep
        simp only [hres, Bool.false_eq_true, if_false, setRow_self] at hstep
        cases hstep
        exact ⟨hcrashed, hwf, htracks, .notLatched hcall rfl rfl⟩
    · cases hstep
  | access_row c =>
    dsimp only at hstep
    split at hstep
    · rename_i row o hcall
      obtain ⟨p, hsection, htracks'⟩ := hm.access_row htracks (hpermits row o hcall)
      rw [hsection] at hstep
      cases hstep
      exact ⟨hcrashed, hwf, htracks', .accessed hcall rfl rfl⟩
    · cases hstep
  | release_migrated_row c =>
    dsimp only at hstep
    split at hstep
    · rename_i row hcall
      obtain ⟨p, hcxl, rfl⟩ := Option.map_eq_some_iff.mp hstep
      exact ⟨hcrashed, hwf, htracks, .releasing hcall hcxl rfl rfl⟩
    · cases hstep
  | decrease c =>
    dsimp only at hstep
    split at hstep
    · rename_i row p hcall
      cases hstep
      have hplaced : placed (setRow s.tables row
          ((rowOf s.tables row).decrease_reference_count_via_ptr p)) = placed s.tables :=
        placed_setRow rfl
      exact ⟨hcrashed, hwf.setRow (wellFormed_onScc (hwf row) _),
        hplaced.symm ▸ htracks, .decreased hcall rfl rfl⟩
    · cases hstep
  | remote_modify_tuple_valid_bit c =>
    dsimp only at hstep
    split at hstep
    · rename_i row hcall
      obtain ⟨p, -, rfl⟩ := Option.map_eq_some_iff.mp hstep
      have hplaced : placed (setRow s.tables row ((rowOf s.tables row).onScc p
          fun d => d.clear_flag valid_flag_index)) = placed s.tables := placed_setRow rfl
      exact ⟨hcrashed, hwf.setRow (wellFormed_onScc (hwf row) _),
        hplaced.symm ▸ htracks, .invalidated hcall rfl rfl⟩
    · cases hstep
  | move_row_out under_budget fuel =>
    dsimp only at hstep
    rcases hm.move_row_out callbacks_takesAway hwf htracks with
      hfuel | ⟨tables, p, ret, hsection, hmoves, hwf', htracks'⟩
    · rw [hfuel] at hstep
      cases hstep
    · rw [hsection] at hstep
      cases hstep
      exact ⟨hcrashed, hwf', htracks', .movedOut hmoves rfl⟩
  | delete_specific_row_and_move_out row is_delete_local =>
    obtain ⟨hcan, hstep⟩ := Option.ite_none_right_eq_some.mp hstep
    obtain ⟨hcallback, hplaced, hwf'⟩ := callbacks_deletes cfg ⟨none, none⟩ hwf is_delete_local
      hcan.2.1
    obtain ⟨p, hsection, htracks'⟩ :=
      hm.delete_specific_row_and_move_out htracks hcallback hpermits
    rw [hsection] at hstep
    cases hstep
    exact ⟨hcrashed, hwf', hplaced ▸ htracks', .deleted hcan rfl rfl⟩

end Policies

def InOrder {ν : Type} (list : DoublyLinked ν) (entity : ν → Option (T × K))
    (tables : T → Table K α) : Prop :=
  ∃ (l : List ν) (rows : List (T × K)), list.Spells l ∧ l.map entity = rows.map some ∧
    rows.Nodup ∧ ∀ row, row ∈ rows ↔ (rowOf tables row).lmeta.is_migrated = true

section

omit [DecidableEq T] [LinearOrder K]

theorem inOrder_of_lists {tables : T → Table K α} {t : LRUTracker (T × K) ((T × K) × Word)}
    (hwf : RowsWellFormed tables) (h : t.Tracks (placed tables)) :
    InOrder t.list t.row_entity_ptr tables := by
  obtain ⟨-, l, hlists⟩ := h
  obtain ⟨hnodup, hmem⟩ := hlists.rows.rows
  refine ⟨l, l.map Prod.fst, hlists.spells, ?_, hnodup, fun row => ?_⟩
  · rw [map_map]
    exact map_congr_left hlists.entity
  · rw [hmem, (hwf row).migrated_iff]
    rfl

theorem inOrder_of_clockLists {tables : T → Table K α}
    {t : ClockTracker (T × K) ((T × K) × Word)} (hwf : RowsWellFormed tables)
    (h : t.Tracks (placed tables)) :
    InOrder t.list (fun i => t.nodes[i]?.map fun node => node.row) tables := by
  obtain ⟨l, hlists⟩ := h
  obtain ⟨hnodup, hmem⟩ := hlists.rows.rows
  refine ⟨l.map Prod.fst, (l.map Prod.snd).map Prod.fst, hlists.spells, ?_, hnodup, fun row => ?_⟩
  · rw [map_map, map_map, map_map]
    refine map_congr_left fun e he => ?_
    simp [hlists.node e he]
  · rw [hmem, (hwf row).migrated_iff]
    rfl

end

def loaded (keys : T → Finset K) (smeta : T → Ptr → TwoPLPashaMetadataShared)
    (scc : T → Word → TwoPLPashaSharedDataSCC α) (value : T → K → α) (t : T) : Table K α :=
  Table.load (keys t) (smeta t) (scc t) (value t)

variable {keys : T → Finset K} {smeta : T → Ptr → TwoPLPashaMetadataShared}
  {scc : T → Word → TwoPLPashaSharedDataSCC α} {value : T → K → α}

omit [DecidableEq T] [LinearOrder K] [DecidableEq C] in
theorem allAccounted_loaded :
    AllAccounted cfg (loaded keys smeta scc value) (fun _ : C => .idle) := by
  intro row
  exact ⟨⟨nofun, nofun, rfl⟩, nofun, fun _ => rfl, fun _ => trivial, nofun, fun _ _ _ => id⟩

-- Deletes for a tracker that cannot untrack.
def DeletesUnmigrated (s : MigrationSystem T K α C P) : MigrationLabel T K α C → Prop
  | .delete_specific_row_and_move_out row _ => (rowOf s.tables row).lmeta.is_migrated = false
  | _ => True

section

omit [DecidableEq T] [LinearOrder K] [DecidableEq C]

instance (s : MigrationSystem T K α C P) (l : MigrationLabel T K α C) :
    Decidable (DeletesUnmigrated s l) := by
  cases l <;> unfold DeletesUnmigrated <;> infer_instance

theorem permits_of_allAccounted (h : AllAccounted cfg s.tables s.calls) :
    Permits (fun placed n => placed n.1 = some n.2) (fun _ _ => True) s l := by
  cases l with
  | access_row c =>
    intro row o hcall
    have hrelies := (h row).relies c
    rw [hcall] at hrelies
    exact hrelies rfl
  | _ => trivial

theorem permits_of_deletesUnmigrated (h : DeletesUnmigrated s l) :
    Permits (fun _ _ => True) (fun placed row => placed row = none) s l := by
  cases l with
  | access_row c => exact fun _ _ _ => trivial
  | delete_specific_row_and_move_out row is_delete_local =>
    exact block_of_not_migrated h
  | _ => trivial

end

section

omit [DecidableEq T] [LinearOrder K]

theorem rowsWellFormed_loaded : RowsWellFormed (loaded keys smeta scc value) :=
  fun _ => ⟨nofun, nofun, rfl⟩

theorem enumerates_loaded : Enumerates [] (placed (loaded keys smeta scc value)) :=
  ⟨nodup_nil, fun _ => ⟨nofun, nofun⟩⟩

end

theorem lru_tracks {prev next : (T × K) × Word → Option ((T × K) × Word)}
    {row_entity_ptr : (T × K) × Word → Option (T × K)}
    {s : MigrationSystem T K α C (LRUTracker (T × K) ((T × K) × Word))}
    (hreach : Reach (step PolicyLRU.manager cfg) (KeepsReferences cfg)
      (init (loaded keys smeta scc value) (LRUTracker.init prev next row_entity_ptr)) s) :
    s.crashed = false ∧ AllAccounted cfg s.tables s.calls ∧
      s.tracker.Tracks (placed s.tables) := by
  refine hreach.invariant (P := fun s => s.crashed = false ∧
    AllAccounted cfg s.tables s.calls ∧ s.tracker.Tracks (placed s.tables)) ?_ ?_
  · exact ⟨rfl, allAccounted_loaded, rfl, [], .nil, enumerates_loaded, nofun⟩
  · rintro s l s' ⟨-, haccounted, htracks⟩ hok hstep
    obtain ⟨hcrashed, -, htracks', he⟩ := step_follows Tigon.Pasha.PolicyLRU.manager_follows
      haccounted.rowsWellFormed htracks (permits_of_allAccounted haccounted) hstep
    exact ⟨hcrashed, he.allAccounted haccounted hok, htracks'⟩

theorem clock_tracks {second_chance : (T × K) × Word → UInt8}
    {s : MigrationSystem T K α C (ClockTracker (T × K) ((T × K) × Word))}
    (hreach : Reach (step PolicyClock.manager cfg) DeletesUnmigrated
      (init (loaded keys smeta scc value) (ClockTracker.init second_chance)) s) :
    s.crashed = false ∧ RowsWellFormed s.tables ∧ s.tracker.Tracks (placed s.tables) := by
  refine hreach.invariant (P := fun s => s.crashed = false ∧ RowsWellFormed s.tables ∧
    s.tracker.Tracks (placed s.tables)) ?_ ?_
  · exact ⟨rfl, rowsWellFormed_loaded, [], .nil,
      enumerates_loaded, nofun, nofun⟩
  · rintro s l s' ⟨-, hwf, htracks⟩ hok hstep
    obtain ⟨hcrashed, hwf', htracks', -⟩ := step_follows Tigon.Pasha.PolicyClock.manager_follows
      hwf htracks (permits_of_deletesUnmigrated hok) hstep
    exact ⟨hcrashed, hwf', htracks'⟩

-- Without deletes that come between a thread's reference and its access, the LRU list follows the
-- migrated rows; without deletes of migrated rows the clock's list does.
theorem trackers_consistent (cfg : PartitionConfig T) (keys : T → Finset K)
    (smeta : T → Ptr → TwoPLPashaMetadataShared) (scc : T → Word → TwoPLPashaSharedDataSCC α)
    (value : T → K → α) :
    (∀ prev next row_entity_ptr (s : MigrationSystem T K α C (LRUTracker (T × K) ((T × K) × Word))),
      Reach (step PolicyLRU.manager cfg) (KeepsReferences cfg)
        (init (loaded keys smeta scc value) (LRUTracker.init prev next row_entity_ptr)) s →
      s.crashed = false ∧ InOrder s.tracker.list s.tracker.row_entity_ptr s.tables) ∧
    (∀ second_chance (s : MigrationSystem T K α C (ClockTracker (T × K) ((T × K) × Word))),
      Reach (step PolicyClock.manager cfg) DeletesUnmigrated
        (init (loaded keys smeta scc value) (ClockTracker.init second_chance)) s →
      s.crashed = false ∧
        InOrder s.tracker.list
          (fun i => s.tracker.nodes[i]?.map fun node => node.row) s.tables) := by
  constructor
  · intro prev next row_entity_ptr s hreach
    obtain ⟨hcrashed, haccounted, htracks⟩ := lru_tracks hreach
    exact ⟨hcrashed, inOrder_of_lists haccounted.rowsWellFormed htracks⟩
  · intro second_chance s hreach
    obtain ⟨hcrashed, hwf, htracks⟩ := clock_tracks hreach
    exact ⟨hcrashed, inOrder_of_clockLists hwf htracks⟩

section TwoRows

def twoRows : PartitionConfig (Fin 1) := ⟨⟨true, true⟩, true, fun _ => .BTREE, 0⟩

def twoRowsLoaded : Fin 1 → Table (Fin 2) Bool :=
  loaded (fun _ => Finset.univ) (fun _ _ => ⟨0⟩) (fun _ _ => ⟨0, 0, 0, false⟩) fun _ _ => true

def twoRowsLRU : MigrationSystem (Fin 1) (Fin 2) Bool (Fin 2)
    (LRUTracker (Fin 1 × Fin 2) ((Fin 1 × Fin 2) × Word)) :=
  init twoRowsLoaded (LRUTracker.init (fun _ => none) (fun _ => none) fun _ => none)

def twoRowsClock : MigrationSystem (Fin 1) (Fin 2) Bool (Fin 2)
    (ClockTracker (Fin 1 × Fin 2) ((Fin 1 × Fin 2) × Word)) :=
  init twoRowsLoaded (ClockTracker.init fun _ => 0)

def moveIn (row : Fin 2) : MigrationLabel (Fin 1) (Fin 2) Bool (Fin 2) :=
  .move_row_in 0 (0, row) ⟨some (8 + row), some (64, ⟨0, 0, 0, false⟩)⟩ false

-- A row is deleted between a thread's reference to it and its access, which then finds an empty
-- list; a migrated row is deleted under the clock.
theorem trackers_stop_at_deletes :
    (∃ s, Reach (step PolicyLRU.manager twoRows) (fun _ _ => True) twoRowsLRU s ∧
      s.crashed = true) ∧
    (∃ s, Reach (step PolicyClock.manager twoRows) (fun _ _ => True) twoRowsClock s ∧
      s.crashed = true) :=
  ⟨exists_reach_of_run _ _ _
    [moveIn 0, .search 1 (0, 0) true, .latch 1, .delete_specific_row_and_move_out (0, 0) true,
        .access_row 1] _ (by decide +kernel),
    exists_reach_of_run _ _ _ [moveIn 0, .delete_specific_row_and_move_out (0, 0) true] _
      (by decide +kernel)⟩

-- Both rows are moved in and one is read; the other one is then deleted or moved out.
theorem trackers_consistent_twoRows :
    (∃ s, Reach (step PolicyLRU.manager twoRows) (KeepsReferences twoRows) twoRowsLRU s ∧
      s.tracker.list.head = some ((0, 0), 64) ∧ s.crashed = false ∧
      InOrder s.tracker.list s.tracker.row_entity_ptr s.tables) ∧
    (∃ s, Reach (step PolicyClock.manager twoRows) DeletesUnmigrated twoRowsClock s ∧
      s.tracker.list.head = some 0 ∧ s.crashed = false ∧
      InOrder s.tracker.list (fun i => s.tracker.nodes[i]?.map fun node => node.row) s.tables) := by
  obtain ⟨s, hs, hhead⟩ := exists_reach_of_run (step PolicyLRU.manager twoRows)
    (KeepsReferences twoRows) twoRowsLRU
    [moveIn 0, moveIn 1, .search 1 (0, 0) true, .latch 1, .access_row 1,
      .delete_specific_row_and_move_out (0, 1) true, .move_row_out (fun _ => false) 2]
    (fun s => s.tracker.list.head = some ((0, 0), 64)) (by decide +kernel)
  obtain ⟨t, ht, hhead'⟩ := exists_reach_of_run (step PolicyClock.manager twoRows)
    DeletesUnmigrated twoRowsClock
    [moveIn 0, moveIn 1, .search 1 (0, 0) true, .latch 1, .access_row 1,
      .move_row_out (fun _ => false) 4, .delete_specific_row_and_move_out (0, 1) true]
    (fun s => s.tracker.list.head = some 0) (by decide +kernel)
  have hconsistent := @trackers_consistent (Fin 1) (Fin 2) Bool (Fin 2) _ _ _ twoRows
    (fun _ => Finset.univ) (fun _ _ => ⟨0⟩) (fun _ _ => ⟨0, 0, 0, false⟩) fun _ _ => true
  exact ⟨⟨s, hs, hhead, hconsistent.1 _ _ _ s hs⟩, ⟨t, ht, hhead', hconsistent.2 _ t ht⟩⟩

end TwoRows

end MigrationSystem

end Tigon.TwoPLPasha
