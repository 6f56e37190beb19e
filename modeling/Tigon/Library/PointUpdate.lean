import Mathlib.Algebra.BigOperators.Group.Finset.Piecewise

namespace Tigon.Library

open Function

variable {K α β : Type} [DecidableEq K]

def onKey (c : K → α) (key : K) (g : α → α) : K → α := update c key (g (c key))

theorem foldl_onKey_apply (key : β → K) (g : β → α → α) (l : List β) (c : K → α) (k : K) :
    (l.foldl (fun c b => onKey c (key b) (g b)) c) k
      = (l.filter fun b => key b = k).foldl (fun x b => g b x) (c k) := by
  induction l generalizing c with
  | nil => rfl
  | cons b l ih =>
    rw [List.foldl_cons, ih]
    by_cases hk : key b = k
    · subst hk
      simp [onKey]
    · have hkeep : onKey c (key b) (g b) k = c k := by
        simp [onKey, Ne.symm hk]
      rw [hkeep]
      simp [hk]

theorem foldl_overwrite (f : β → α) (l : List β) (x : α) :
    l.foldl (fun _ b => f b) x = (l.getLast?.map f).getD x := by
  induction l generalizing x with
  | nil => rfl
  | cons b l ih =>
    rw [List.foldl_cons, ih]
    cases hlast : l.getLast? with
    | none =>
      have hnil : l = [] := List.getLast?_eq_none_iff.mp hlast
      subst hnil
      rfl
    | some b' => rw [List.getLast?_cons, hlast]; rfl

theorem foldl_onKey_const (key : β → K) (x : α) (l : List β) (c : K → α) (k : K) :
    (l.foldl (fun c b => onKey c (key b) fun _ => x) c) k
      = if k ∈ l.map key then x else c k := by
  induction l generalizing c with
  | nil => simp
  | cons b l ih =>
    rw [List.foldl_cons, ih]
    by_cases hk : k = key b
    · subst hk
      simp [onKey]
    · have hkeep : onKey c (key b) (fun _ => x) k = c k := by
        simp [onKey, hk]
      rw [hkeep]
      simp [hk]

theorem sum_update_add {M : Type} [AddCommMonoid M] [Fintype K] (f : K → M) (k : K) (x : M) :
    ∑ j, update f k x j + f k = ∑ j, f j + x := by
  rw [Finset.sum_update_of_mem (Finset.mem_univ k),
    Finset.sum_eq_sum_sdiff_singleton_add (Finset.mem_univ k) f, add_comm x, add_right_comm]

theorem sum_comp_update_add {M : Type} [AddCommMonoid M] [Fintype K] (w : α → M) (f : K → α)
    (k : K) (x : α) :
    ∑ j, w (update f k x j) + w (f k) = ∑ j, w (f j) + w x := by
  have hcomp : (fun j => w (update f k x j))
      = update (fun j => w (f j)) k (w x) := Function.comp_update w f k x
  rw [hcomp]
  exact sum_update_add _ k (w x)

end Tigon.Library
