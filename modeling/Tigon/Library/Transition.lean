import Mathlib.Algebra.GroupWithZero.Nat
import Mathlib.Logic.Relation

namespace Tigon.Library

variable {σ ε : Type}

-- States reached from `start` by steps that all meet `ok`, a condition on the
-- state before the step and the label of the step.
inductive Reach (step : σ → ε → Option σ) (ok : σ → ε → Prop) (start : σ) : σ → Prop
  | refl : Reach step ok start start
  | tail {s t : σ} {e : ε} (hs : Reach step ok start s) (hok : ok s e)
      (ht : step s e = some t) : Reach step ok start t

namespace Reach

variable {step : σ → ε → Option σ} {ok : σ → ε → Prop} {start : σ}

-- The invariant rule: what holds at the start and is kept by every admitted
-- step holds in every reached state.
theorem invariant {P : σ → Prop} (hstart : P start)
    (hstep : ∀ s e t, P s → ok s e → step s e = some t → P t)
    {s : σ} (hs : Reach step ok start s) : P s := by
  induction hs with
  | refl => exact hstart
  | tail _ hok ht ih => exact hstep _ _ _ ih hok ht

end Reach

-- For the numerals of small finite types in runs on fixed inputs.
instance neZero_one : NeZero 1 := ⟨by decide⟩

instance neZero_two : NeZero 2 := ⟨by decide⟩

-- The run of a list of labels, stopped at the first label that is not admitted
-- or not enabled.
def run (step : σ → ε → Option σ) (ok : σ → ε → Prop) [∀ s e, Decidable (ok s e)] :
    σ → List ε → Option σ
  | s, [] => some s
  | s, e :: es => if ok s e then (step s e).bind (fun t => run step ok t es) else none

theorem reach_of_run {step : σ → ε → Option σ} {ok : σ → ε → Prop}
    [∀ s e, Decidable (ok s e)] {start s t : σ} {es : List ε}
    (hs : Reach step ok start s) (hrun : run step ok s es = some t) :
    Reach step ok start t := by
  induction es generalizing s with
  | nil =>
    simp only [run, Option.some.injEq] at hrun
    exact hrun ▸ hs
  | cons e es ih =>
    simp only [run] at hrun
    split at hrun
    · rename_i hok
      obtain ⟨u, hu, hrest⟩ := Option.bind_eq_some_iff.mp hrun
      exact ih (.tail hs hok hu) hrest
    · cases hrun

theorem exists_reach_of_run (step : σ → ε → Option σ) (ok : σ → ε → Prop)
    [∀ s e, Decidable (ok s e)] (start : σ) (es : List ε) (P : σ → Prop) [DecidablePred P]
    (h : (run step ok start es).any (fun s => decide (P s)) = true) :
    ∃ s, Reach step ok start s ∧ P s := by
  cases hrun : run step ok start es with
  | none =>
    rw [hrun] at h
    cases h
  | some s =>
    rw [hrun] at h
    exact ⟨s, reach_of_run .refl hrun, of_decide_eq_true h⟩

end Tigon.Library
