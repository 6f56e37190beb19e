import Tigon.Library.LinkedList

namespace Tigon.Library

open Function List Linked

-- A list through its nodes. What a node that is not in the list points to is not used.
structure DoublyLinked (ν : Type) where
  head : Option ν
  tail : Option ν
  prev : ν → Option ν
  next : ν → Option ν

namespace DoublyLinked

variable {ν : Type} [DecidableEq ν]

def pushBack (d : DoublyLinked ν) (x : ν) : Option (DoublyLinked ν) :=
  match d.head, d.tail with
  | none, none => some ⟨some x, some x, update d.prev x none, update d.next x none⟩
  | some head, some tail =>
    if d.next tail = none ∧ d.prev head = none then
      some { d with
        next := update d.next tail (some x)
        prev := update d.prev x (some tail)
        tail := some x }
    else none
  | _, _ => none

def bypass (d : DoublyLinked ν) (x : ν) : DoublyLinked ν :=
  let next := setTo d.next (d.prev x) (d.next x)
  let prev := setTo d.prev (next x) (d.prev x)
  { head := if d.head = some x then next x else d.head
    tail := if d.tail = some x then prev x else d.tail
    prev := prev
    next := next }

def detach (d : DoublyLinked ν) (x : ν) : DoublyLinked ν :=
  { d with prev := update d.prev x none, next := update d.next x none }

def remove (d : DoublyLinked ν) (x : ν) : Option (DoublyLinked ν) :=
  if d.head = none ∧ d.tail = none then none
  else if d.head = d.tail then
    if some x = d.head then some ({ d with head := none, tail := none }.detach x) else none
  else some ((d.bypass x).detach x)

-- The list that the pointers spell, in both directions.
structure Spells (d : DoublyLinked ν) (l : List ν) : Prop where
  head : d.head = l.head?
  tail : d.tail = l.getLast?
  next : Linked d.next l
  prev : Linked d.prev l.reverse
  nodup : l.Nodup

namespace Spells

variable {d : DoublyLinked ν} {l us vs : List ν} {x : ν}

section

omit [DecidableEq ν]

theorem nil {prev next : ν → Option ν} : Spells ⟨none, none, prev, next⟩ [] :=
  ⟨rfl, rfl, trivial, trivial, nodup_nil⟩

theorem next_eq (h : d.Spells (us ++ x :: vs)) : d.next x = vs.head? := h.next.next

theorem prev_eq (h : d.Spells (us ++ x :: vs)) : d.prev x = us.getLast? := by
  have hprev := h.prev
  rw [reverse_append, reverse_cons, append_assoc, singleton_append] at hprev
  rw [hprev.next, List.head?_reverse]

theorem congr {d' : DoublyLinked ν} (h : d.Spells l) (hhead : d'.head = d.head)
    (htail : d'.tail = d.tail) (hnext : ∀ y ∈ l, d'.next y = d.next y)
    (hprev : ∀ y ∈ l, d'.prev y = d.prev y) : d'.Spells l :=
  ⟨hhead.trans h.head, htail.trans h.tail, h.next.congr hnext,
    h.prev.congr fun y hy => hprev y (mem_reverse.mp hy), h.nodup⟩

end

theorem pushBack (h : d.Spells l) (hx : x ∉ l) (hnext : d.next x = none) :
    ∃ d', d.pushBack x = some d' ∧ d'.Spells (l ++ [x]) := by
  rcases eq_nil_or_concat' l with rfl | ⟨us, y, rfl⟩
  · refine ⟨⟨some x, some x, update d.prev x none, update d.next x none⟩, ?_, ?_⟩
    · rw [DoublyLinked.pushBack, h.head, h.tail]
      rfl
    · exact ⟨rfl, rfl, ⟨update_self .., trivial⟩, ⟨update_self .., trivial⟩,
        nodup_singleton x⟩
  · obtain ⟨first, hfirst⟩ : ∃ first, d.head = some first := by
      rw [h.head]
      cases us <;> exact ⟨_, rfl⟩
    have hlast : d.tail = some y := by rw [h.tail, List.getLast?_concat]
    have hend : d.next y = none := h.next_eq
    have hstart : d.prev first = none := by
      have hhead := h.head.symm.trans hfirst
      obtain ⟨rest, hrest⟩ := List.head?_eq_some_iff.mp hhead
      have hsplit : d.Spells ([] ++ first :: rest) := by rw [nil_append, ← hrest]; exact h
      exact hsplit.prev_eq
    have hne : ∀ z ∈ us ++ [y], z ≠ x := fun z hz => ne_of_mem_of_not_mem hz hx
    have hyus : y ∉ us := by
      have hnodup := h.nodup
      rw [nodup_append] at hnodup
      exact fun hmem => hnodup.2.2 y hmem y (mem_singleton_self y) rfl
    refine ⟨{ d with
      next := update d.next y (some x)
      prev := update d.prev x (some y)
      tail := some x }, ?_, ?_, ?_, ?_, ?_, ?_⟩
    · rw [DoublyLinked.pushBack, hfirst, hlast]
      simp [hend, hstart]
    · rw [h.head]
      cases us <;> rfl
    · rw [List.getLast?_concat]
    · -- the last pointer of the list goes to the new node
      have hsingle : Linked d.next [x] := ⟨hnext, trivial⟩
      have hlinked := h.next
      rw [← append_nil (us ++ [y])] at hlinked
      have happend := hlinked.append hsingle
        (fun z hz hmem => hne z hz (mem_singleton.mp hmem)) h.nodup
      rwa [setLast, List.getLast?_concat] at happend
    · rw [reverse_append, reverse_singleton, singleton_append]
      refine ⟨?_, h.prev.congr fun z hz => ?_⟩
      · rw [List.head?_reverse, List.getLast?_concat]
        exact update_self ..
      · exact update_of_ne (hne z (mem_reverse.mp hz)) _ _
    · refine nodup_append.mpr ⟨h.nodup, nodup_singleton x, fun z hz w hw => ?_⟩
      rw [mem_singleton.mp hw]
      exact hne z hz

theorem bypass_eq (h : d.Spells (us ++ x :: vs)) : d.bypass x =
    { head := (us ++ vs).head?
      tail := (us ++ vs).getLast?
      next := setLast d.next us vs.head?
      prev := setLast d.prev vs.reverse us.getLast? } := by
  obtain ⟨-, hvs, hdisjoint⟩ := nodup_append.mp h.nodup
  have hus : x ∉ us := fun hx => hdisjoint x hx x mem_cons_self rfl
  have hvs' : x ∉ vs.reverse := fun hx => (nodup_cons.mp hvs).1 (mem_reverse.mp hx)
  have hnext : setTo d.next (d.prev x) (d.next x) = setLast d.next us vs.head? := by
    rw [h.prev_eq, h.next_eq]
    rfl
  have hprev : setTo d.prev (setLast d.next us vs.head? x) (d.prev x)
      = setLast d.prev vs.reverse us.getLast? := by
    rw [setLast_of_notMem hus, h.prev_eq, h.next_eq, setLast, List.getLast?_reverse]
  unfold DoublyLinked.bypass
  simp only [hnext, hprev]
  rw [setLast_of_notMem hus, setLast_of_notMem hvs', h.next_eq, h.prev_eq, h.head,
    h.tail]
  congr 1
  · cases us with
    | nil => simp
    | cons u us =>
      have hne : u ≠ x := fun heq => hus (heq ▸ mem_cons_self)
      simp [hne]
  · rcases eq_nil_or_concat' vs with rfl | ⟨vs, v, rfl⟩
    · simp
    · have hne : v ≠ x := fun heq => hvs' (by simp [heq])
      rw [← append_assoc, List.getLast?_concat, ← cons_append, ← append_assoc,
        List.getLast?_concat, if_neg (by simpa using hne)]

theorem bypass (h : d.Spells (us ++ x :: vs)) : (d.bypass x).Spells (us ++ vs) := by
  rw [h.bypass_eq]
  refine ⟨rfl, rfl, h.next.erase h.nodup, ?_, ?_⟩
  · have hprev := h.prev
    rw [reverse_append, reverse_cons, append_assoc, singleton_append] at hprev
    have hnodup : (vs.reverse ++ x :: us.reverse).Nodup := by
      have hrev := nodup_reverse.mpr h.nodup
      rwa [reverse_append, reverse_cons, append_assoc,
        singleton_append] at hrev
    have herase := hprev.erase hnodup
    rwa [List.head?_reverse, ← reverse_append] at herase
  · exact h.nodup.sublist ((sublist_cons_self x vs).append_left us)

omit [DecidableEq ν] in
theorem mem_of_head {y : ν} (h : d.Spells l) (hy : d.head = some y) : y ∈ l :=
  mem_of_mem_head? (h.head ▸ hy)

omit [DecidableEq ν] in
theorem mem_of_next {y : ν} (h : d.Spells l) (hx : x ∈ l) (hy : d.next x = some y) : y ∈ l := by
  obtain ⟨us, vs, rfl⟩ := append_of_mem hx
  rw [h.next_eq] at hy
  exact mem_append_right _ (mem_cons_of_mem _ (mem_of_mem_head? hy))

theorem detach (h : d.Spells l) (hx : x ∉ l) : (d.detach x).Spells l :=
  h.congr rfl rfl (fun _ hy => update_of_ne (ne_of_mem_of_not_mem hy hx) _ _)
    fun _ hy => update_of_ne (ne_of_mem_of_not_mem hy hx) _ _

omit [DecidableEq ν] in
theorem ends_eq (h : d.Spells (us ++ x :: vs)) (hone : d.head = d.tail) : us = [] ∧ vs = [] := by
  have hnodup := h.nodup
  rw [h.head, h.tail] at hone
  cases us with
  | nil =>
    refine ⟨rfl, ?_⟩
    rcases eq_nil_or_concat' vs with rfl | ⟨vs, v, rfl⟩
    · rfl
    · rw [nil_append, ← cons_append, List.getLast?_concat] at hone
      simp_all
  | cons u us =>
    rcases eq_nil_or_concat' (x :: vs) with hnil | ⟨ws, w, hws⟩
    · cases hnil
    · rw [hws, ← append_assoc, List.getLast?_concat] at hone
      rw [hws] at hnodup
      simp_all

theorem remove (h : d.Spells (us ++ x :: vs)) :
    ∃ d', d.remove x = some d' ∧ d'.Spells (us ++ vs) ∧ d'.next x = none ∧ d'.prev x = none := by
  have hx : x ∉ us ++ vs := by
    have hnodup := h.nodup
    rw [nodup_middle] at hnodup
    exact (nodup_cons.mp hnodup).1
  have hne : ¬ (d.head = none ∧ d.tail = none) := by
    rw [h.head]
    cases us <;> simp
  by_cases hone : d.head = d.tail
  · -- head and tail are the same node only if it is the only one
    obtain ⟨rfl, rfl⟩ : us = [] ∧ vs = [] := h.ends_eq hone
    refine ⟨{ d with head := none, tail := none }.detach x, ?_, ?_, update_self ..,
      update_self ..⟩
    · rw [DoublyLinked.remove, if_neg hne, if_pos hone, h.head]
      simp
    · exact nil
  · refine ⟨(d.bypass x).detach x, ?_, h.bypass.detach hx, update_self ..,
      update_self ..⟩
    rw [DoublyLinked.remove, if_neg hne, if_neg hone]

end Spells

end DoublyLinked

end Tigon.Library
