import Mathlib.Data.List.Nodup

namespace Tigon.Library

open Function List

variable {α : Type}

-- Pointers that follow a list: each member points to the next one, and the last one to none.
def Linked (f : α → Option α) : List α → Prop
  | [] => True
  | a :: rest => f a = rest.head? ∧ Linked f rest

namespace Linked

variable {f g : α → Option α} {a b : α} {us vs : List α}

theorem congr (h : Linked f us) (hfg : ∀ x ∈ us, g x = f x) : Linked g us := by
  induction us with
  | nil => exact trivial
  | cons x us ih =>
    obtain ⟨hx, hus⟩ := forall_mem_cons.mp hfg
    exact ⟨hx.trans h.1, ih h.2 hus⟩

theorem of_append (h : Linked f (us ++ vs)) : Linked f vs := by
  induction us with
  | nil => exact h
  | cons x us ih => exact ih h.2

theorem next (h : Linked f (us ++ a :: vs)) : f a = vs.head? := h.of_append.1

variable [DecidableEq α]

def setTo (f : α → Option α) (node target : Option α) : α → Option α :=
  match node with
  | none => f
  | some c => update f c target

def setLast (f : α → Option α) (us : List α) (target : Option α) : α → Option α :=
  setTo f us.getLast? target

theorem setLast_of_notMem {target : Option α} (hb : b ∉ us) : setLast f us target b = f b := by
  unfold setLast
  cases hc : us.getLast? with
  | none => rfl
  | some c =>
    have hmem : c ∈ us := mem_of_getLast? hc
    exact update_of_ne (ne_of_mem_of_not_mem hmem hb).symm _ _

theorem setLast_cons {target : Option α} {x : α} (hne : us ≠ []) :
    setLast f (x :: us) target = setLast f us target := by
  rw [setLast, setLast, List.getLast?_cons_of_ne_nil hne]

theorem append (hus : Linked f (us ++ vs)) {ws : List α} (hws : Linked f ws)
    (hdisjoint : ∀ x ∈ us, x ∉ ws) (hnodup : us.Nodup) :
    Linked (setLast f us ws.head?) (us ++ ws) := by
  induction us with
  | nil => exact hws
  | cons x us ih =>
    obtain ⟨hx, hdisjoint⟩ := forall_mem_cons.mp hdisjoint
    obtain ⟨hxus, hnodup⟩ := nodup_cons.mp hnodup
    cases us with
    | nil =>
      refine ⟨update_self .., hws.congr fun y hy => ?_⟩
      exact update_of_ne (ne_of_mem_of_not_mem hy hx) _ _
    | cons y us =>
      rw [setLast_cons (cons_ne_nil y us)]
      refine ⟨?_, ih hus.2 hdisjoint hnodup⟩
      rw [setLast_of_notMem hxus]
      exact hus.1

theorem insert (h : Linked f (us ++ vs)) (hnodup : (us ++ vs).Nodup) (hb : b ∉ us ++ vs) :
    Linked (setLast (update f b vs.head?) us (some b)) (us ++ b :: vs) := by
  obtain ⟨hus, hvs, hdisjoint⟩ := nodup_append.mp hnodup
  have hne : ∀ x ∈ us ++ vs, update f b vs.head? x = f x := fun x hx =>
    update_of_ne (ne_of_mem_of_not_mem hx hb) _ _
  have htail : Linked (update f b vs.head?) (b :: vs) := by
    refine ⟨update_self .., ?_⟩
    exact h.of_append.congr fun x hx => hne x (mem_append_right us hx)
  refine append (h.congr hne) htail ?_ hus
  intro x hx hmem
  rcases mem_cons.mp hmem with rfl | hmem
  · exact hb (mem_append_left vs hx)
  · exact hdisjoint x hx x hmem rfl

theorem erase (h : Linked f (us ++ b :: vs)) (hnodup : (us ++ b :: vs).Nodup) :
    Linked (setLast f us vs.head?) (us ++ vs) := by
  obtain ⟨hus, -, hdisjoint⟩ := nodup_append.mp hnodup
  refine append h h.of_append.2 ?_ hus
  exact fun x hx hmem => hdisjoint x hx x (mem_cons_of_mem b hmem) rfl

end Linked

end Tigon.Library
