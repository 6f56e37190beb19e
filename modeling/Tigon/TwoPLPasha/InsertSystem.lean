import Tigon.TwoPLPasha.Table

namespace Tigon.TwoPLPasha

open Tigon.Library

-- An insert whose placeholder is in the index. Its transaction holds the write lock of the
-- next row until it has committed.
structure PendingInsert (K : Type) where
  key : K
  next_row : K
  committed : Bool
deriving DecidableEq

structure InsertSystem (K α : Type) where
  table : Table K α
  pending : List (PendingInsert K)

inductive InsertLabel (K α : Type)
  | insert (key : K) (value : α)
  | commitInsert (key : K)
  | releaseNext (key : K) (new_value : Word)
  | moveIn (key : K) (alloc : Allocation α) (inc_ref_cnt : Bool)
  | moveOut (key : K)
deriving DecidableEq

namespace InsertSystem

variable {K α : Type} [LinearOrder K]

def afterInsert (s : InsertSystem K α) (key : K) (next : Option K) (res : Table K α × Bool) :
    InsertSystem K α where
  table := res.1
  pending := if res.2 then (next.map fun next => ⟨key, next, false⟩).toList ++ s.pending
    else s.pending

def insert (host : Host) (key : K) (value : α) (s : InsertSystem K α) :
    Option (InsertSystem K α) :=
  (s.table.insert_and_update_next_key_info host key value true).map
    (s.afterInsert key (nextIn s.table.keys key))

def commitInsert (host : Host) (key : K) (s : InsertSystem K α) : Option (InsertSystem K α) :=
  if ∃ p ∈ s.pending, p.key = key ∧ p.committed = false then
    (s.table.commitInsert host key).map fun t =>
      { table := t
        pending := s.pending.map fun p => if p.key = key then { p with committed := true } else p }
  else none

def releaseNext (ctx : Context) (host : Host) (key : K) (new_value : Word)
    (s : InsertSystem K α) : Option (InsertSystem K α) :=
  (s.pending.find? fun p => p.key = key && p.committed).bind fun p =>
    (s.table.step ctx host (.call p.next_row (.releaseVersion new_value))).map fun t =>
      { table := t, pending := s.pending.erase p }

def onTable (s : InsertSystem K α) (t : Option (Table K α)) : Option (InsertSystem K α) :=
  t.map fun t => { s with table := t }

def step (ctx : Context) (host : Host) (s : InsertSystem K α) :
    InsertLabel K α → Option (InsertSystem K α)
  | .insert key value => s.insert host key value
  | .commitInsert key => s.commitInsert host key
  | .releaseNext key new_value => s.releaseNext ctx host key new_value
  | .moveIn key alloc inc_ref_cnt =>
    s.onTable (s.table.step ctx host (.moveIn key alloc inc_ref_cnt))
  | .moveOut key => s.onTable (s.table.step ctx host (.moveOut key))

end InsertSystem

end Tigon.TwoPLPasha
