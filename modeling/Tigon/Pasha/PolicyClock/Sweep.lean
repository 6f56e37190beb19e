import Mathlib.Data.List.Basic

namespace Tigon.Pasha.PolicyClock

open List

-- A row as a sweep sees it. It is due if it was free at the start of the call.
structure TrackedRow where
  second_chance : Bool
  referenced : Bool
  due : Bool
deriving DecidableEq

namespace TrackedRow

def free (r : TrackedRow) : Bool := !r.second_chance && !r.referenced

def read (r : TrackedRow) : TrackedRow := { r with second_chance := false }

end TrackedRow

-- One reading of the list. A free row leaves, and the row behind it is not read. The flag
-- says that the last row of the list was one that left.
def reading : List TrackedRow → List TrackedRow × Bool
  | [] => ([], false)
  | [r] => if r.free then ([], true) else ([r.read], false)
  | r :: x :: rest =>
    if r.free then
      let (left, last) := reading rest
      (x :: left, last)
    else
      let (left, last) := reading (x :: rest)
      (r.read :: left, last)

def passedOver : List TrackedRow → List TrackedRow
  | [] => []
  | [_] => []
  | r :: x :: rest => if r.free then x :: passedOver rest else passedOver (x :: rest)

-- No due row is passed over, or the list is read again and that holds of what is left.
inductive Clean : List TrackedRow → Prop
  | once {rows : List TrackedRow} (h : ∀ r ∈ passedOver rows, r.due = false) : Clean rows
  | again {rows : List TrackedRow} (hlast : (reading rows).2 = true)
      (h : Clean (reading rows).1) : Clean rows

inductive SweptTo : List TrackedRow → List TrackedRow → Prop
  | stop {rows : List TrackedRow} (hlast : (reading rows).2 = false) :
      SweptTo rows (reading rows).1
  | again {rows rows' : List TrackedRow} (hlast : (reading rows).2 = true)
      (h : SweptTo (reading rows).1 rows') : SweptTo rows rows'

def SweptFrom (done rows rows' : List TrackedRow) : Prop :=
  if (reading rows).2 then SweptTo (done ++ (reading rows).1) rows'
  else rows' = done ++ (reading rows).1

variable {rows rows' done : List TrackedRow} {r x : TrackedRow}

theorem reading_of_not_free (hfree : r.free = false) :
    reading (r :: rows) = (r.read :: (reading rows).1, (reading rows).2) := by
  cases rows with
  | nil | cons x rest => simp [reading, hfree]

theorem SweptFrom.read (hfree : r.free = false) (h : SweptFrom (done ++ [r.read]) rows rows') :
    SweptFrom done (r :: rows) rows' := by
  simpa [SweptFrom, reading_of_not_free hfree] using h

theorem SweptFrom.leave (hfree : r.free = true) (h : SweptFrom (done ++ [x]) rows rows') :
    SweptFrom done (r :: x :: rows) rows' := by
  simpa [SweptFrom, reading, hfree] using h

theorem SweptFrom.nil_iff : SweptFrom [] rows rows' ↔ SweptTo rows rows' := by
  rw [SweptFrom]
  constructor
  · intro h
    split at h
    · rename_i hlast
      exact .again hlast h
    · rename_i hlast
      rw [h]
      exact .stop (eq_false_of_ne_true hlast)
  · rintro (hlast | ⟨hlast, h⟩)
    · simp [hlast]
    · rw [if_pos hlast]
      exact h

theorem SweptFrom.leave_last (hfree : r.free = true) (h : SweptFrom [] done rows') :
    SweptFrom done [r] rows' := by
  simpa [SweptFrom, reading, hfree] using SweptFrom.nil_iff.mp h

theorem passedOver_subset (h : r ∈ passedOver rows) : r ∈ rows ∧ r ∈ (reading rows).1 := by
  induction rows using passedOver.induct with
  | case1 | case2 => cases h
  | case3 r' x rest hfree ih =>
    rw [passedOver, if_pos hfree] at h
    rw [reading, if_pos hfree]
    rcases mem_cons.mp h with rfl | h
    · simp
    · obtain ⟨hmem, hleft⟩ := ih h
      simp [hmem, hleft]
  | case4 r' x rest hfree ih =>
    rw [passedOver, if_neg hfree] at h
    rw [reading, if_neg hfree]
    obtain ⟨hmem, hleft⟩ := ih h
    exact ⟨mem_cons_of_mem _ hmem, mem_cons_of_mem _ hleft⟩

theorem mem_left (h : r ∈ (reading rows).1) :
    r ∈ passedOver rows ∨ ∃ r₀ ∈ rows, r₀.free = false ∧ r = r₀.read := by
  induction rows using passedOver.induct with
  | case1 => cases h
  | case2 r' =>
    rw [reading] at h
    split at h
    · cases h
    · rename_i hfree
      right
      exact ⟨r', by simp, eq_false_of_ne_true hfree, mem_singleton.mp h⟩
  | case3 r' x rest hfree ih =>
    rw [reading, if_pos hfree] at h
    rw [passedOver, if_pos hfree]
    rcases mem_cons.mp h with rfl | h
    · simp
    · rcases ih h with hpassed | ⟨r₀, hr₀, hread⟩
      · simp [hpassed]
      · right
        exact ⟨r₀, by simp [hr₀], hread⟩
  | case4 r' x rest hfree ih =>
    rw [reading, if_neg hfree] at h
    rw [passedOver, if_neg hfree]
    rcases mem_cons.mp h with rfl | h
    · right
      exact ⟨r', by simp, eq_false_of_ne_true hfree, rfl⟩
    · rcases ih h with hpassed | ⟨r₀, hr₀, hread⟩
      · exact .inl hpassed
      · right
        exact ⟨r₀, mem_cons_of_mem _ hr₀, hread⟩

-- Due rows are free, and stay free until they leave.
def DueFree (rows : List TrackedRow) : Prop := ∀ r ∈ rows, r.due = true → r.free = true

theorem DueFree.mem_passedOver (h : DueFree rows) (hr : r ∈ (reading rows).1)
    (hdue : r.due = true) : r ∈ passedOver rows := by
  rcases mem_left hr with hpassed | ⟨r₀, hr₀, hfree, rfl⟩
  · exact hpassed
  · rw [h r₀ hr₀ hdue] at hfree
    cases hfree

theorem DueFree.left (h : DueFree rows) : DueFree (reading rows).1 := by
  intro r hr hdue
  exact h r (passedOver_subset (h.mem_passedOver hr hdue)).1 hdue

theorem DueFree.left_iff (h : DueFree rows) :
    (∀ r ∈ (reading rows).1, r.due = false) ↔ ∀ r ∈ passedOver rows, r.due = false := by
  constructor
  · intro hleft r hr
    exact hleft r (passedOver_subset hr).2
  · intro hpassed r hr
    by_contra hdue
    rw [Bool.not_eq_false] at hdue
    have hnot := hpassed r (h.mem_passedOver hr hdue)
    rw [hdue] at hnot
    cases hnot

-- After the sweep no due row is left exactly if the list was clean.
theorem SweptTo.clean_iff (h : SweptTo rows rows') (hdue : DueFree rows) :
    (∀ r ∈ rows', r.due = false) ↔ Clean rows := by
  induction h with
  | stop hlast =>
    rw [hdue.left_iff]
    constructor
    · exact .once
    · rintro (h | ⟨hlast', -⟩)
      · exact h
      · rw [hlast] at hlast'
        cases hlast'
  | again hlast _ ih =>
    rw [ih hdue.left]
    constructor
    · exact .again hlast
    · rintro (h | ⟨-, h⟩)
      · apply Clean.once
        intro r hr
        exact hdue.left_iff.mpr h r (passedOver_subset hr).1
      · exact h

end Tigon.Pasha.PolicyClock
