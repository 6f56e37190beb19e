import Tigon.Library.DoublyLinked
import Tigon.Pasha.MigrationManager

namespace Tigon.Pasha

open Tigon.Library
open TwoPLPasha (migration_result)
open MigrationManager (Callbacks)

structure ClockTrackerNode (ρ ν : Type) where
  row : ρ
  migration_manager_meta : Option ν
deriving DecidableEq

-- The tracker of one partition together with the ClockMeta of the shared blocks. The nodes are
-- the owner's own and numbered as they are created; none is freed.
structure ClockTracker (ρ ν : Type) where
  list : DoublyLinked Nat
  nodes : List (ClockTrackerNode ρ ν)
  cursor : Option Nat
  second_chance : ν → UInt8

namespace ClockTracker

variable {ρ ν : Type} [DecidableEq ν]

def init (second_chance : ν → UInt8) : ClockTracker ρ ν :=
  ⟨⟨none, none, fun _ => none, fun _ => none⟩, [], none, second_chance⟩

def track (t : ClockTracker ρ ν) (node : Nat) : Option (ClockTracker ρ ν) :=
  (t.list.pushBack node).map fun list => { t with list := list }

def untrack (t : ClockTracker ρ ν) (node : Nat) : Option (ClockTracker ρ ν) :=
  (t.list.remove node).map fun list => { t with list := list }

def move_forward_and_get_cursor (t : ClockTracker ρ ν) : ClockTracker ρ ν :=
  { t with
    cursor := match t.cursor with
      | none => t.list.head
      | some cursor => t.list.next cursor }

def setSecondChance (t : ClockTracker ρ ν) (clock_meta : ν) (value : UInt8) : ClockTracker ρ ν :=
  { t with second_chance := Function.update t.second_chance clock_meta value }

def newNode (t : ClockTracker ρ ν) (node : ClockTrackerNode ρ ν) : ClockTracker ρ ν :=
  { t with list := t.list.detach t.nodes.length, nodes := t.nodes ++ [node] }

end ClockTracker

namespace PolicyClock

variable {σ ρ ν : Type} [DecidableEq ν]

-- A move-in that succeeds calls this on the block it fills.
def init_migration_policy_metadata (t : ClockTracker ρ ν) (clock_meta : ν) : ClockTracker ρ ν :=
  t.setSecondChance clock_meta 0

def access_row (clock_meta : ν) (t : ClockTracker ρ ν) : Except Stop (ClockTracker ρ ν) :=
  .ok (t.setSecondChance clock_meta 1)

def move_row_in (callbacks : Callbacks σ ρ ν) (row : ρ) (inc_ref_cnt : Bool) (s : σ)
    (t : ClockTracker ρ ν) : Except Stop (σ × ClockTracker ρ ν × migration_result) :=
  match callbacks.move_from_partition_to_shared_region row inc_ref_cnt s with
  | none => .error .check
  | some (s, .SUCCESS, clock_meta) =>
    let t := match clock_meta with
      | some clock_meta => init_migration_policy_metadata t clock_meta
      | none => t
    (Stop.onNone ((t.newNode ⟨row, clock_meta⟩).track t.nodes.length)).map
      fun t => (s, t, .SUCCESS)
  | some (s, ret, _) => .ok (s, t, ret)

-- The loop of a move-out, which has moved out `moved` rows so far.
def moveOutLoop (callbacks : Callbacks σ ρ ν) (under_budget : Nat → Bool) :
    Nat → Nat → σ → ClockTracker ρ ν → Except Stop (σ × ClockTracker ρ ν × Bool)
  | 0, _, _, _ => .error .fuel
  | fuel + 1, moved, s, t =>
    let t := t.move_forward_and_get_cursor
    match t.cursor with
    | none => .ok (s, t, false)
    | some victim =>
      match t.nodes[victim]? with
      | none | some ⟨_, none⟩ => .error .check
      | some ⟨row, some clock_meta⟩ =>
        if t.second_chance clock_meta = 1 then
          moveOutLoop callbacks under_budget fuel moved s (t.setSecondChance clock_meta 0)
        else
          match callbacks.move_from_shared_region_to_partition row s with
          | (s, false) => moveOutLoop callbacks under_budget fuel moved s t
          | (s, true) =>
            match t.move_forward_and_get_cursor.untrack victim with
            | none => .error .check
            | some t =>
              if under_budget (moved + 1) then .ok (s, t, true)
              else moveOutLoop callbacks under_budget fuel (moved + 1) s t

-- The cursor stays where it is for the next move-out.
def move_row_out (callbacks : Callbacks σ ρ ν) (under_budget : Nat → Bool) (fuel : Nat) (s : σ)
    (t : ClockTracker ρ ν) : Except Stop (σ × ClockTracker ρ ν × Bool) :=
  if under_budget 0 then .ok (s, t, false)
  else moveOutLoop callbacks under_budget fuel 0 s t

-- The tracker is not told about a row that leaves the shared region: the CHECK forbids it.
def delete_specific_row_and_move_out (callbacks : Callbacks σ ρ ν) (row : ρ)
    (is_delete_local : Bool) (s : σ) (t : ClockTracker ρ ν) :
    Except Stop (σ × ClockTracker ρ ν × Bool) :=
  match callbacks.delete_and_update_next_key_info row is_delete_local s with
  | (_, ⟨false, _, _⟩) => .error .check
  | (_, ⟨true, true, _⟩) => .error .check
  | (s, ⟨true, false, _⟩) => .ok (s, t, true)

def manager : MigrationManager σ ρ ν (ClockTracker ρ ν) where
  access_row := access_row
  move_row_in := move_row_in
  move_row_out := move_row_out
  delete_specific_row_and_move_out := delete_specific_row_and_move_out

end PolicyClock

end Tigon.Pasha
