import Mathlib.Data.Finset.Card

namespace Tigon.Library

open Function Finset

inductive LockKind
  | read
  | write
deriving DecidableEq

-- A readers-writer lock word: how many readers it counts and whether it is
-- taken for writing.
structure LockView where
  readers : Nat
  writer : Bool
deriving DecidableEq

namespace LockView

def free (max : Nat) (kind : LockKind) (l : LockView) : Bool :=
  match kind with
  | .read => !l.writer && l.readers != max
  | .write => l.readers == 0 && !l.writer

def acquire (kind : LockKind) (l : LockView) : LockView :=
  match kind with
  | .read => { l with readers := l.readers + 1 }
  | .write => { l with writer := true }

def release (kind : LockKind) (l : LockView) : LockView :=
  match kind with
  | .read => { l with readers := l.readers - 1 }
  | .write => { l with writer := false }

def held (kind : LockKind) (l : LockView) : Prop :=
  match kind with
  | .read => 0 < l.readers
  | .write => l.writer = true

end LockView

variable {C : Type}

-- The word accounts for the locks its clients hold: it counts every reader, and a
-- writer has set its bit and is alone.
structure Accounts (holder : C → Option LockKind) (l : LockView) : Prop where
  readers : ∃ S : Finset C, (∀ c, holder c = some .read ↔ c ∈ S) ∧ S.card ≤ l.readers
  writer : ∀ c, holder c = some .write →
    l.writer = true ∧ ∀ d kind, holder d = some kind → d = c

namespace Accounts

variable {holder : C → Option LockKind} {l l' : LockView} {kind : LockKind} {c : C}

theorem none (l : LockView) : Accounts (fun _ : C => Option.none) l :=
  ⟨⟨∅, by simp, by simp⟩, by simp⟩

theorem held (h : Accounts holder l) (hc : holder c = some kind) : l.held kind := by
  cases kind with
  | read =>
    obtain ⟨S, hS, hcard⟩ := h.readers
    have hpos : 0 < S.card := card_pos.mpr ⟨c, (hS c).mp hc⟩
    exact lt_of_lt_of_le hpos hcard
  | write => exact (h.writer c hc).1

theorem not_writer_of_free {max : Nat} (h : Accounts holder l) (hfree : l.free max kind = true)
    (c : C) : holder c ≠ some .write := by
  intro hc
  have hw := (h.writer c hc).1
  cases kind <;> simp [LockView.free, hw] at hfree

theorem not_reader_of_free {max : Nat} (h : Accounts holder l)
    (hfree : l.free max .write = true) (c : C) : holder c ≠ some .read := by
  intro hc
  have hheld : 0 < l.readers := h.held hc
  simp only [LockView.free, Bool.and_eq_true, beq_iff_eq] at hfree
  omega

section

variable [DecidableEq C]

theorem acquire {max : Nat} (h : Accounts holder l) (hfree : l.free max kind = true)
    (hc : holder c = Option.none) :
    Accounts (update holder c (some kind)) (l.acquire kind) := by
  obtain ⟨S, hS, hcard⟩ := h.readers
  have hcS : c ∉ S := fun hmem => absurd ((hS c).mpr hmem) (by simp [hc])
  cases kind with
  | read =>
    refine ⟨⟨insert c S, fun d => ?_, ?_⟩, fun d hd => ?_⟩
    · by_cases hdc : d = c
      · subst hdc; simp
      · simp [hdc, hS]
    · rw [card_insert_of_notMem hcS]
      exact Nat.add_le_add_right hcard 1
    · -- a writer would have made the word unfree
      by_cases hdc : d = c
      · subst hdc; simp at hd
      · rw [update_of_ne hdc] at hd
        exact absurd hd (h.not_writer_of_free hfree d)
  | write =>
    refine ⟨⟨S, fun d => ?_, hcard⟩, fun d hd => ⟨rfl, fun e k he => ?_⟩⟩
    · by_cases hdc : d = c
      · subst hdc; simp [hcS]
      · simp [hdc, hS]
    · have hnone : ∀ e ≠ c, ∀ k, holder e ≠ some k := by
        intro e _ k
        cases k with
        | read => exact h.not_reader_of_free hfree e
        | write => exact h.not_writer_of_free hfree e
      have hdc : d = c := by
        by_contra hne
        rw [update_of_ne hne] at hd
        exact hnone d hne _ hd
      by_contra hne
      rw [update_of_ne (fun heq => hne (heq.trans hdc.symm))] at he
      exact hnone e (fun heq => hne (heq.trans hdc.symm)) k he

theorem drop (h : Accounts holder l) (hc : holder c = some kind)
    (hreaders : kind = .read → l.readers - 1 ≤ l'.readers)
    (hwriter : kind = .read → l'.writer = l.writer) :
    Accounts (update holder c Option.none) l' := by
  obtain ⟨S, hS, hcard⟩ := h.readers
  refine ⟨⟨S.erase c, fun d => ?_, ?_⟩, fun d hd => ?_⟩
  · by_cases hdc : d = c
    · subst hdc; simp
    · simp [hdc, hS]
  · cases kind with
    | read =>
      rw [card_erase_of_mem ((hS c).mp hc)]
      exact le_trans (Nat.sub_le_sub_right hcard 1) (hreaders rfl)
    | write =>
      -- a writer is alone, so no reader stays
      have hempty : S.erase c = ∅ := by
        refine eq_empty_of_forall_notMem fun d hd => ?_
        obtain ⟨hne, hmem⟩ := mem_erase.mp hd
        exact hne ((h.writer c hc).2 d .read ((hS d).mpr hmem))
      simp [hempty]
  · by_cases hdc : d = c
    · subst hdc; simp at hd
    · rw [update_of_ne hdc] at hd
      obtain ⟨hw, halone⟩ := h.writer d hd
      exact absurd (halone c kind hc).symm hdc

theorem release (h : Accounts holder l) (hc : holder c = some kind) :
    Accounts (update holder c Option.none) (l.release kind) := by
  apply h.drop hc
  · rintro rfl; exact le_refl _
  · rintro rfl; rfl

theorem release_elsewhere (h : Accounts holder l) (hc : holder c = some kind) :
    Accounts (update holder c Option.none) l :=
  h.drop hc (fun _ => Nat.sub_le ..) fun _ => rfl

theorem release_write (h : Accounts holder l) (hc : holder c = some .write) (l' : LockView) :
    Accounts (update holder c Option.none) l' :=
  h.drop hc (by simp) (by simp)

end

theorem exclusive {d : C} (h : Accounts holder l) (hc : holder c = some .write)
    (hd : holder d = some kind) : d = c :=
  (h.writer c hc).2 d kind hd

end Accounts

end Tigon.Library
