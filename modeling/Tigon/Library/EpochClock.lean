import Mathlib.Logic.Function.Basic

namespace Tigon.Library

open Function

-- A shared epoch that the members of a group follow. No member is ahead of it and none is
-- more than one epoch behind.
@[ext]
structure EpochClock (T : Type) where
  global : Nat
  reached : T → Nat
  reached_le : ∀ t, reached t ≤ global
  global_le : ∀ t, global ≤ reached t + 1

namespace EpochClock

variable {T : Type}

def start : EpochClock T := ⟨0, fun _ => 0, fun _ => Nat.le_refl 0, fun _ => Nat.zero_le _⟩

def tick (c : EpochClock T) (h : ∀ t, c.global ≤ c.reached t) : EpochClock T where
  global := c.global + 1
  reached := c.reached
  reached_le t := Nat.le_succ_of_le (c.reached_le t)
  global_le t := Nat.succ_le_succ (h t)

def catchUp [DecidableEq T] (c : EpochClock T) (t : T) : EpochClock T where
  global := c.global
  reached := update c.reached t c.global
  reached_le u := by
    by_cases hu : u = t
    · subst hu
      exact Nat.le_of_eq (update_self ..)
    · rw [update_of_ne hu]
      exact c.reached_le u
  global_le u := by
    by_cases hu : u = t
    · subst hu
      rw [update_self]
      omega
    · rw [update_of_ne hu]
      exact c.global_le u

inductive Step [DecidableEq T] (c : EpochClock T) : EpochClock T → Prop
  | stay : Step c c
  | tick (h : ∀ t, c.global ≤ c.reached t) : Step c (c.tick h)
  | catchUp (t : T) : Step c (c.catchUp t)

theorem reached_eq_or (c : EpochClock T) (t : T) :
    c.reached t = c.global ∨ c.reached t + 1 = c.global := by
  have hle := c.reached_le t
  have hlag := c.global_le t
  omega

theorem lt_reached_of_add_two_le (c : EpochClock T) {e : Nat} (h : e + 2 ≤ c.global) (t : T) :
    e < c.reached t := by
  have hlag := c.global_le t
  omega

section

variable [DecidableEq T] {c c' : EpochClock T}

theorem Step.global_le (h : Step c c') : c.global ≤ c'.global := by
  cases h with
  | stay => exact Nat.le_refl _
  | tick _ => exact Nat.le_succ _
  | catchUp _ => exact Nat.le_refl _

theorem Step.reached_le (h : Step c c') (u : T) : c.reached u ≤ c'.reached u := by
  cases h with
  | stay | tick _ => exact Nat.le_refl _
  | catchUp t =>
    by_cases hu : u = t
    · subst hu
      simpa [EpochClock.catchUp] using c.reached_le u
    · simp [EpochClock.catchUp, hu]

end

end EpochClock

end Tigon.Library
