import Mathlib.Data.List.Basic

namespace Tigon.Library

open List

namespace Mailbox

-- Messages in flight as a list from which any message may be taken next.
variable {μ : Type} {l : List μ} {n : Nat} {m m' : μ} {p : μ → Bool}

theorem exists_split (h : l[n]? = some m) :
    ∃ l₁ l₂, l = l₁ ++ m :: l₂ ∧ l.eraseIdx n = l₁ ++ l₂ := by
  obtain ⟨hn, rfl⟩ := List.getElem?_eq_some_iff.mp h
  refine ⟨l.take n, l.drop (n + 1), ?_, eraseIdx_eq_take_drop_succ ..⟩
  rw [getElem_cons_drop, take_append_drop]

theorem filter_take_of_neg (h : l[n]? = some m) (hp : p m = false) :
    (l.eraseIdx n).filter p = l.filter p := by
  obtain ⟨l₁, l₂, hl, herase⟩ := exists_split h
  rw [herase, hl, filter_append, filter_append, filter_cons_of_neg (by simp [hp])]

theorem filter_take_of_eq (h : l[n]? = some m) (hp : p m = true) (hl : l.filter p = [m']) :
    m = m' ∧ (l.eraseIdx n).filter p = [] := by
  obtain ⟨l₁, l₂, hsplit, herase⟩ := exists_split h
  rw [hsplit, filter_append, filter_cons_of_pos hp] at hl
  obtain ⟨h₁, hcons⟩ := (append_eq_singleton_iff.mp hl).resolve_right (by simp)
  obtain ⟨rfl, h₂⟩ := List.cons.inj hcons
  rw [herase, filter_append, h₁, h₂]
  exact ⟨rfl, rfl⟩

theorem countP_take (h : l[n]? = some m) :
    l.countP p = (l.eraseIdx n).countP p + if p m then 1 else 0 := by
  obtain ⟨l₁, l₂, hl, herase⟩ := exists_split h
  rw [herase, hl, countP_append, countP_append, countP_cons]
  omega

end Mailbox

end Tigon.Library
