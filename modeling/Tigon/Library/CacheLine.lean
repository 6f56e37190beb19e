import Mathlib.Logic.Function.Basic

namespace Tigon.Library

-- A block of memory that hosts read and write through caches which nothing keeps in step.
structure CacheLine (H δ : Type) where
  memory : δ
  copy : H → Option δ

namespace CacheLine

variable {H δ : Type}

def view (l : CacheLine H δ) (h : H) : δ := (l.copy h).getD l.memory

def clwb (l : CacheLine H δ) (h : H) : CacheLine H δ := { l with memory := l.view h }

@[simp]
theorem view_clwb_self (l : CacheLine H δ) (h : H) : (l.clwb h).view h = l.view h := by
  cases hcopy : l.copy h with
  | none | some d => simp [clwb, view, hcopy]

@[simp]
theorem memory_clwb (l : CacheLine H δ) (h : H) : (l.clwb h).memory = l.view h := rfl

variable [DecidableEq H]

def clflush (l : CacheLine H δ) (h : H) : CacheLine H δ :=
  { l with copy := Function.update l.copy h none }

def store (l : CacheLine H δ) (h : H) (d : δ) : CacheLine H δ :=
  { l with copy := Function.update l.copy h (some d) }

-- The cache makes room, which it may do at any time with a copy that is clean.
def evict [DecidableEq δ] (l : CacheLine H δ) (h : H) : Option (CacheLine H δ) :=
  if l.copy h = some l.memory then some (l.clflush h) else none

variable {l : CacheLine H δ} {h h' : H} {d : δ}

@[simp]
theorem view_clflush_self : (l.clflush h).view h = l.memory := by
  simp [clflush, view]

theorem view_clflush_of_ne (hne : h' ≠ h) : (l.clflush h).view h' = l.view h' := by
  simp [clflush, view, hne]

@[simp]
theorem memory_store : (l.store h d).memory = l.memory := rfl

@[simp]
theorem view_store_self : (l.store h d).view h = d := by
  simp [store, view]

theorem view_store_of_ne (hne : h' ≠ h) : (l.store h d).view h' = l.view h' := by
  simp [store, view, hne]

theorem view_evict [DecidableEq δ] {l' : CacheLine H δ} (hevict : l.evict h = some l') (h' : H) :
    l'.memory = l.memory ∧ l'.view h' = l.view h' := by
  obtain ⟨hclean, rfl⟩ := Option.ite_some_none_eq_some.mp hevict
  refine ⟨rfl, ?_⟩
  by_cases hh : h' = h
  · subst hh
    rw [view_clflush_self, view, hclean]
    rfl
  · exact view_clflush_of_ne hh

end CacheLine

end Tigon.Library
