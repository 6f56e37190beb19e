import Mathlib.Data.List.Basic

namespace Tigon.Library

open List

-- A place in a queue that its holder takes first and fills later.
structure Ticket (C α : Type) where
  holder : C
  value : α
  ready : Bool
deriving DecidableEq

namespace Ticket

variable {C α : Type}

def complete (l : List (Ticket C α)) (i : Nat) : List (Ticket C α) :=
  l.modify i fun t => { t with ready := true }

def completed (l : List (Ticket C α)) : List α := (l.filter Ticket.ready).map Ticket.value

theorem length_complete (l : List (Ticket C α)) (i : Nat) : (complete l i).length = l.length :=
  length_modify ..

theorem getElem?_complete_self {l : List (Ticket C α)} {i : Nat} {t : Ticket C α}
    (h : l[i]? = some t) : (complete l i)[i]? = some { t with ready := true } := by
  simp [complete, h]

theorem getElem?_complete_of_ne (l : List (Ticket C α)) {i j : Nat} (h : i ≠ j) :
    (complete l i)[j]? = l[j]? := by
  simp [complete, h]

theorem map_value_complete (l : List (Ticket C α)) (i : Nat) :
    (complete l i).map Ticket.value = l.map Ticket.value := by
  apply ext_getElem?
  intro j
  rcases eq_or_ne i j with rfl | hne
  · cases h : l[i]? <;> simp [complete, h]
  · simp [getElem?_complete_of_ne l hne]

theorem map_holder_complete (l : List (Ticket C α)) (i : Nat) :
    (complete l i).map Ticket.holder = l.map Ticket.holder := by
  apply ext_getElem?
  intro j
  rcases eq_or_ne i j with rfl | hne
  · cases h : l[i]? <;> simp [complete, h]
  · simp [getElem?_complete_of_ne l hne]

theorem take_prefix_completed {l : List (Ticket C α)} {n : Nat}
    (h : ∀ i < n, ∀ t, l[i]? = some t → t.ready = true) :
    (l.map Ticket.value).take n <+: completed l := by
  have hfilter : (l.take n).filter Ticket.ready = l.take n := by
    rw [filter_eq_self]
    intro t ht
    obtain ⟨i, hi⟩ := mem_iff_getElem?.mp ht
    rw [List.getElem?_take] at hi
    split at hi
    · exact h i ‹_› t hi
    · cases hi
  refine ⟨((l.drop n).filter Ticket.ready).map Ticket.value, ?_⟩
  rw [completed, ← map_take, ← map_append, ← hfilter, ← filter_append,
    take_append_drop]

end Ticket

end Tigon.Library
