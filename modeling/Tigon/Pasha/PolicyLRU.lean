import Tigon.Library.DoublyLinked
import Tigon.Pasha.MigrationManager

namespace Tigon.Pasha

open Tigon.Library
open TwoPLPasha (migration_result)
open MigrationManager (Callbacks)

-- The tracker of one partition together with the LRUMeta of the shared blocks, whose prev and
-- next are the pointers of the list.
structure LRUTracker (ρ ν : Type) where
  list : DoublyLinked ν
  row_entity_ptr : ν → Option ρ
  cur_victim : Option ν

namespace LRUTracker

variable {ρ ν : Type} [DecidableEq ν]

def init (prev next : ν → Option ν) (row_entity_ptr : ν → Option ρ) : LRUTracker ρ ν :=
  ⟨⟨none, none, prev, next⟩, row_entity_ptr, none⟩

def track (t : LRUTracker ρ ν) (lru_meta : ν) : Option (LRUTracker ρ ν) :=
  if t.list.next lru_meta = none ∧ t.list.prev lru_meta = none then
    (t.list.pushBack lru_meta).map fun list => { t with list := list }
  else none

def untrack (t : LRUTracker ρ ν) (lru_meta : ν) : Option (LRUTracker ρ ν) :=
  (t.list.remove lru_meta).map fun list => { t with list := list }

def promote (t : LRUTracker ρ ν) (lru_meta : ν) : Option (LRUTracker ρ ν) :=
  (t.untrack lru_meta).bind fun t => t.track lru_meta

def get_next_victim (t : LRUTracker ρ ν) : LRUTracker ρ ν :=
  { t with
    cur_victim := match t.cur_victim with
      | none => t.list.head
      | some cur_victim => t.list.next cur_victim }

def reset_cur_victim (t : LRUTracker ρ ν) : LRUTracker ρ ν :=
  { t with cur_victim := none }

def init_migration_policy_metadata (t : LRUTracker ρ ν) (lru_meta : ν) (row : ρ) :
    LRUTracker ρ ν :=
  { t with
    list := t.list.detach lru_meta
    row_entity_ptr := Function.update t.row_entity_ptr lru_meta (some row) }

def freeRowEntity (t : LRUTracker ρ ν) (lru_meta : ν) : LRUTracker ρ ν :=
  { t with row_entity_ptr := Function.update t.row_entity_ptr lru_meta none }

end LRUTracker

namespace PolicyLRU

variable {σ ρ ν : Type} [DecidableEq ν]

def access_row (lru_meta : ν) (t : LRUTracker ρ ν) : Except Stop (LRUTracker ρ ν) :=
  Stop.onNone (t.promote lru_meta)

def move_row_in (callbacks : Callbacks σ ρ ν) (row : ρ) (inc_ref_cnt : Bool) (s : σ)
    (t : LRUTracker ρ ν) : Except Stop (σ × LRUTracker ρ ν × migration_result) :=
  match callbacks.move_from_partition_to_shared_region row inc_ref_cnt s with
  | none => .error .check
  | some (s, .SUCCESS, some lru_meta) =>
    (Stop.onNone ((t.init_migration_policy_metadata lru_meta row).track lru_meta)).map
      fun t => (s, t, .SUCCESS)
  | some (_, .SUCCESS, none) => .error .check
  | some (s, ret, _) => .ok (s, t, ret)

def moveOutLoop (callbacks : Callbacks σ ρ ν) (under_budget : Nat → Bool) :
    Nat → Nat → σ → LRUTracker ρ ν → Except Stop (σ × LRUTracker ρ ν × Bool)
  | 0, _, _, _ => .error .fuel
  | fuel + 1, moved, s, t =>
    let t := t.get_next_victim
    match t.cur_victim with
    | none => .ok (s, t, false)
    | some victim =>
      match t.row_entity_ptr victim with
      | none => .error .check
      | some row =>
        match callbacks.move_from_shared_region_to_partition row s with
        | (s, false) => moveOutLoop callbacks under_budget fuel moved s t
        | (s, true) =>
          match t.untrack victim with
          | none => .error .check
          | some t =>
            let t := t.reset_cur_victim.freeRowEntity victim
            if under_budget (moved + 1) then .ok (s, t, true)
            else moveOutLoop callbacks under_budget fuel (moved + 1) s t

def move_row_out (callbacks : Callbacks σ ρ ν) (under_budget : Nat → Bool) (fuel : Nat) (s : σ)
    (t : LRUTracker ρ ν) : Except Stop (σ × LRUTracker ρ ν × Bool) :=
  if under_budget 0 then .ok (s, t, false)
  else (moveOutLoop callbacks under_budget fuel 0 s t).map
    fun (s, t, ret) => (s, t.reset_cur_victim, ret)

def delete_specific_row_and_move_out (callbacks : Callbacks σ ρ ν) (row : ρ)
    (is_delete_local : Bool) (s : σ) (t : LRUTracker ρ ν) :
    Except Stop (σ × LRUTracker ρ ν × Bool) :=
  match callbacks.delete_and_update_next_key_info row is_delete_local s with
  | (_, ⟨false, _, _⟩) => .error .check
  | (s, ⟨true, false, _⟩) => .ok (s, t, true)
  | (s, ⟨true, true, lru_meta⟩) =>
    (Stop.onNone (lru_meta.bind t.untrack)).map fun t => (s, t, true)

def manager : MigrationManager σ ρ ν (LRUTracker ρ ν) where
  access_row := access_row
  move_row_in := move_row_in
  move_row_out := move_row_out
  delete_specific_row_and_move_out := delete_specific_row_and_move_out

end PolicyLRU

end Tigon.Pasha
