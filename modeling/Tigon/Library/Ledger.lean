import Mathlib.Algebra.Order.Group.Multiset
import Mathlib.Algebra.BigOperators.Group.List.Basic

namespace Tigon.Library

open List

-- What a party holds of counted resources. None: it has given back what it did not hold.
abbrev Ledger (R : Type) := Option (Multiset R)

namespace Ledger

variable {R : Type}

def take (r : R) (ledger : Ledger R) : Ledger R := ledger.map fun held => r ::ₘ held

def give [DecidableEq R] (r : R) (ledger : Ledger R) : Ledger R :=
  ledger.bind fun held => if r ∈ held then some (held.erase r) else none

theorem take_some (r : R) (held : Multiset R) : take r (some held) = some ({r} + held) := rfl

theorem give_some [DecidableEq R] (r : R) (held : Multiset R) :
    give r (some ({r} + held)) = some held := by
  unfold give
  rw [Option.bind_some, Multiset.singleton_add, if_pos (Multiset.mem_cons_self r held),
    Multiset.erase_cons_head]

end Ledger

-- `Settles returns calls owed`: the calls give back `owed` in all, `returns` being what a
-- single call gives back.
inductive Settles {C R : Type} (returns : C → Multiset R → Prop) : List C → Multiset R → Prop
  | nil : Settles returns [] 0
  | cons {call : C} {calls : List C} {part owed : Multiset R} (h : returns call part)
      (hs : Settles returns calls owed) : Settles returns (call :: calls) (part + owed)

namespace Settles

variable {C R α : Type} {returns : C → Multiset R → Prop}

theorem append {calls calls' : List C} {owed owed' : Multiset R} (h : Settles returns calls owed)
    (h' : Settles returns calls' owed') : Settles returns (calls ++ calls') (owed + owed') := by
  induction h with
  | nil =>
    rw [zero_add]
    exact h'
  | cons hcall _ ih =>
    rw [add_assoc]
    exact .cons hcall ih

theorem flatMap {f : α → List C} {owed : α → Multiset R} {l : List α}
    (h : ∀ a ∈ l, Settles returns (f a) (owed a)) :
    Settles returns (l.flatMap f) (l.map owed).sum := by
  induction l with
  | nil => exact .nil
  | cons a l ih =>
    rw [flatMap_cons, map_cons, sum_cons]
    exact (h a mem_cons_self).append (ih fun b hb => h b (mem_cons_of_mem a hb))

theorem map {f : α → C} {owed : α → R} {l : List α} (h : ∀ a ∈ l, returns (f a) {owed a}) :
    Settles returns (l.map f) (l.map owed : List R) := by
  induction l with
  | nil => exact .nil
  | cons a l ih =>
    exact .cons (h a mem_cons_self) (ih fun b hb => h b (mem_cons_of_mem a hb))

theorem foldl {apply : Ledger R → C → Ledger R} {calls : List C} {owed : Multiset R}
    (h : Settles returns calls owed) (rest : Multiset R)
    (hcall : ∀ call part held, returns call part → apply (some (part + held)) call = some held) :
    calls.foldl apply (some (owed + rest)) = some rest := by
  induction h with
  | nil => rw [foldl_nil, zero_add]
  | cons hc _ ih =>
    rw [foldl_cons, add_assoc, hcall _ _ _ hc]
    exact ih

end Settles

theorem exists_sum_map_set {α R : Type} (held : α → Multiset R) {l : List α} {n : Nat} {a : α}
    (h : l[n]? = some a) :
    ∃ rest, (l.map held).sum = held a + rest ∧
      ∀ b, ((l.set n b).map held).sum = held b + rest := by
  induction l generalizing n with
  | nil => cases h
  | cons x l ih =>
    cases n with
    | zero =>
      cases h
      exact ⟨(l.map held).sum, sum_cons, fun b => sum_cons⟩
    | succ n =>
      obtain ⟨rest, hsum, hset⟩ := ih h
      refine ⟨held x + rest, ?_, fun b => ?_⟩
      · rw [map_cons, sum_cons, hsum, add_left_comm]
      · rw [set_cons_succ, map_cons, sum_cons, hset b, add_left_comm]

theorem exists_mem_of_mem_sum_map {α R : Type} {held : α → Multiset R} {l : List α} {r : R}
    (h : r ∈ (l.map held).sum) : ∃ a ∈ l, r ∈ held a := by
  induction l with
  | nil => cases h
  | cons x l ih =>
    rw [map_cons, sum_cons, Multiset.mem_add] at h
    rcases h with h | h
    · exact ⟨x, mem_cons_self, h⟩
    · obtain ⟨a, ha, hr⟩ := ih h
      exact ⟨a, mem_cons_of_mem x ha, hr⟩

end Tigon.Library
