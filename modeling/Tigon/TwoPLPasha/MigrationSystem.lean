import Tigon.Pasha.MigrationManager
import Tigon.TwoPLPasha.Table

namespace Tigon.TwoPLPasha

open Function Tigon.Library
open Tigon.Pasha (MigrationManager Stop)
open Tigon.Pasha.MigrationManager (Callbacks)

inductive TableType
  | HASHMAP
  | BTREE
deriving DecidableEq

structure PartitionConfig (T : Type) where
  ctx : Context
  enable_phantom_detection : Bool
  tableType : T → TableType
  coordinator_id : Host

def PartitionConfig.keepsNeighbours {T : Type} (cfg : PartitionConfig T) (table : T) : Bool :=
  cfg.enable_phantom_detection && decide (cfg.tableType table = .BTREE)

namespace RowState

variable {α : Type}

def block (r : RowState α) : Option Word :=
  if r.lmeta.is_migrated then r.lmeta.scc_data else none

-- The reference count that a move-in of the row raises, if it gets that far.
def countForMoveIn (ctx : Context) (alloc : Allocation α) (r : RowState α) : Option (BitVec 8) :=
  if r.lmeta.is_migrated then some (r.sccOf r.lmeta.migrated_row).ref_cnt
  else (r.sccForMoveIn ctx alloc).map fun (r, o) => (r.scc o).ref_cnt

end RowState

namespace Table

variable {T K α : Type} [LinearOrder K]

def move_from_partition_to_shared_region (cfg : PartitionConfig T) (table : T)
    (alloc : Allocation α) (inc_ref_cnt : Bool) (key : K) (t : Table K α) :
    Option (Table K α × migration_result) :=
  if cfg.keepsNeighbours table then
    t.move_from_btree_to_shared_region cfg.ctx cfg.coordinator_id alloc inc_ref_cnt key
  else
    (RowState.move_from_hashmap_to_shared_region cfg.ctx cfg.coordinator_id alloc inc_ref_cnt
      (t.row key)).map fun (r, res) => (t.onRow key fun _ => r, res)

def move_from_shared_region_to_partition (cfg : PartitionConfig T) (table : T) (key : K)
    (t : Table K α) : Table K α × Bool :=
  if cfg.keepsNeighbours table then
    t.move_from_btree_to_partition cfg.ctx cfg.coordinator_id key
  else
    let (r, move_out_success) :=
      RowState.move_from_hashmap_to_partition cfg.ctx cfg.coordinator_id (t.row key)
    (t.onRow key fun _ => r, move_out_success)

end Table

section Callbacks

variable {T K α : Type} [DecidableEq T] [LinearOrder K]

def rowOf (tables : T → Table K α) (row : T × K) : RowState α := (tables row.1).row row.2

def setRow (tables : T → Table K α) (row : T × K) (r : RowState α) : T → Table K α :=
  update tables row.1 ((tables row.1).onRow row.2 fun _ => r)

def placed (tables : T → Table K α) (row : T × K) : Option Word := (rowOf tables row).block

-- The helper's functions as the managers are given them. The policy's metadata of a row is
-- named by the row and the SCC block it lies in.
def callbacks (cfg : PartitionConfig T) (alloc : Allocation α) :
    Callbacks (T → Table K α) (T × K) ((T × K) × Word) where
  move_from_partition_to_shared_region row inc_ref_cnt tables :=
    ((tables row.1).move_from_partition_to_shared_region cfg row.1 alloc inc_ref_cnt row.2).map
      fun (t, res) =>
        (update tables row.1
            { t with allocated := alloc.smeta.toList ++ (tables row.1).allocated },
          res, if res = .SUCCESS then (t.row row.2).lmeta.scc_data.map (row, ·) else none)
  move_from_shared_region_to_partition row tables :=
    let (t, move_out_success) :=
      (tables row.1).move_from_shared_region_to_partition cfg row.1 row.2
    (update tables row.1 t, move_out_success)
  delete_and_update_next_key_info row is_local_delete tables :=
    let r := rowOf tables row
    (update tables row.1
        ((tables row.1).delete_and_update_next_key_info row.2 is_local_delete),
      -- the index hands a key that it does not have to nobody
      if row.2 ∈ (tables row.1).keys then
        ⟨true, r.lmeta.is_migrated,
          if r.lmeta.is_migrated then some (row, (r.smeta r.lmeta.migrated_row).get_scc_data)
          else none⟩
      else ⟨false, false, none⟩)

end Callbacks

-- A thread of another host, between two of its sections: it has found a shared row in the CXL
-- index, has raised the reference count and is about to report the access, has a reference, is
-- about to give it back.
inductive RemoteCall (ρ : Type)
  | idle
  | found (row : ρ) (migrated_row : Ptr) (inc_ref_cnt : Bool)
  | accessing (row : ρ) (scc_data : Word)
  | holding (row : ρ)
  | releasing (row : ρ) (migrated_row : Ptr)
deriving DecidableEq

structure MigrationSystem (T K α C P : Type) where
  tables : T → Table K α
  tracker : P
  calls : C → RemoteCall (T × K)
  crashed : Bool

inductive MigrationLabel (T K α C : Type)
  | move_row_in (c : C) (row : T × K) (alloc : Allocation α) (inc_ref_cnt : Bool)
  | search (c : C) (row : T × K) (inc_ref_cnt : Bool)
  | latch (c : C)
  | access_row (c : C)
  | release_migrated_row (c : C)
  | decrease (c : C)
  | remote_modify_tuple_valid_bit (c : C)
  | move_row_out (under_budget : Nat → Bool) (fuel : Nat)
  | delete_specific_row_and_move_out (row : T × K) (is_delete_local : Bool)

namespace MigrationSystem

variable {T K α C P β : Type}

-- A section that stops at a CHECK takes the process with it.
def finish (s : MigrationSystem T K α C P) (next : β → MigrationSystem T K α C P) :
    Except Stop β → Option (MigrationSystem T K α C P)
  | .ok b => some (next b)
  | .error .check => some { s with crashed := true }
  | .error .fuel => none

def init (tables : T → Table K α) (tracker : P) : MigrationSystem T K α C P :=
  ⟨tables, tracker, fun _ => .idle, false⟩

variable [DecidableEq T] [LinearOrder K] [DecidableEq C]

def setCall (s : MigrationSystem T K α C P) (c : C) (call : RemoteCall (T × K)) :
    MigrationSystem T K α C P :=
  { s with calls := update s.calls c call }

def afterMoveIn (row : T × K) (inc_ref_cnt : Bool) (res : migration_result) : RemoteCall (T × K) :=
  if inc_ref_cnt = true ∧ res ≠ .FAIL_OOM then .holding row else .idle

open TwoPLPashaSharedDataSCC (valid_flag_index)

-- A delete is of a row that its transaction has found and locked. The host of a remote delete
-- has cleared the valid flag before.
def canDelete (cfg : PartitionConfig T) (tables : T → Table K α) (row : T × K)
    (is_delete_local : Bool) : Prop :=
  cfg.keepsNeighbours row.1 = true ∧ row.2 ∈ (tables row.1).keys ∧
    (is_delete_local = false → (rowOf tables row).lmeta.is_migrated = true →
      ((rowOf tables row).sccOf (rowOf tables row).lmeta.migrated_row).get_flag valid_flag_index
        = false)

omit [DecidableEq T] in
instance (cfg : PartitionConfig T) (tables : T → Table K α) (row : T × K)
    (is_delete_local : Bool) : Decidable (canDelete cfg tables row is_delete_local) :=
  inferInstanceAs (Decidable (_ ∧ _ ∧ _))

-- Each label is one index operation, one latched section or one section under the tracker lock.
def step (manager : MigrationManager (T → Table K α) (T × K) ((T × K) × Word) P)
    (cfg : PartitionConfig T) (s : MigrationSystem T K α C P) (l : MigrationLabel T K α C) :
    Option (MigrationSystem T K α C P) :=
  if s.crashed then none
  else match l with
  | .move_row_in c row alloc inc_ref_cnt =>
    -- a hash map's row is one the caller has found
    if s.calls c = .idle ∧ (s.tables row.1).admits alloc ∧
        (cfg.keepsNeighbours row.1 = true ∨ row.2 ∈ (s.tables row.1).keys) then
      s.finish (fun (tables, tracker, res) =>
          { s with tables := tables, tracker := tracker }.setCall c
            (afterMoveIn row inc_ref_cnt res))
        (manager.move_row_in (callbacks cfg alloc) row inc_ref_cnt s.tables s.tracker)
    else none
  | .search c row inc_ref_cnt =>
    match s.calls c, (rowOf s.tables row).cxl with
    | .idle, some migrated_row => some (s.setCall c (.found row migrated_row inc_ref_cnt))
    | .idle, none => some s
    | _, _ => none
  | .latch c =>
    match s.calls c with
    | .found row migrated_row inc_ref_cnt =>
      let (r, res) := (rowOf s.tables row).get_migrated_row_latched migrated_row inc_ref_cnt
      let call := if res.isSome && inc_ref_cnt
        then RemoteCall.accessing row (r.smeta migrated_row).get_scc_data else .idle
      some ({ s with tables := setRow s.tables row r }.setCall c call)
    | _ => none
  | .access_row c =>
    match s.calls c with
    | .accessing row scc_data =>
      s.finish (fun tracker => { s with tracker := tracker }.setCall c (.holding row))
        (manager.access_row (row, scc_data) s.tracker)
    | _ => none
  | .release_migrated_row c =>
    match s.calls c with
    | .holding row =>
      (rowOf s.tables row).cxl.map fun migrated_row => s.setCall c (.releasing row migrated_row)
    | _ => none
  | .decrease c =>
    match s.calls c with
    | .releasing row migrated_row =>
      let r := (rowOf s.tables row).decrease_reference_count_via_ptr migrated_row
      some ({ s with tables := setRow s.tables row r }.setCall c .idle)
    | _ => none
  | .remote_modify_tuple_valid_bit c =>
    match s.calls c with
    | .holding row =>
      -- the reference of a remote delete is not given back
      (rowOf s.tables row).cxl.map fun migrated_row =>
        let r := (rowOf s.tables row).onScc migrated_row fun d => d.clear_flag valid_flag_index
        { s with tables := setRow s.tables row r }.setCall c .idle
    | _ => none
  | .move_row_out under_budget fuel =>
    s.finish (fun (tables, tracker, _) => { s with tables := tables, tracker := tracker })
      (manager.move_row_out (callbacks cfg ⟨none, none⟩) under_budget fuel s.tables s.tracker)
  | .delete_specific_row_and_move_out row is_delete_local =>
    if canDelete cfg s.tables row is_delete_local then
      s.finish (fun (tables, tracker, _) => { s with tables := tables, tracker := tracker })
        (manager.delete_specific_row_and_move_out (callbacks cfg ⟨none, none⟩) row
          is_delete_local s.tables s.tracker)
    else none

end MigrationSystem

end Tigon.TwoPLPasha
