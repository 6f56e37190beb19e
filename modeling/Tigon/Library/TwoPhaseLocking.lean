import Tigon.Library.ReadersWriter

namespace Tigon.Library

open List

-- A lock for writing permits both kinds of access.
def LockKind.Permits (lock access : LockKind) : Prop := lock = .write ∨ access = .read

namespace Schedule

structure Access (τ κ β : Type) where
  txn : τ
  row : κ
  kind : LockKind
  value : β
deriving DecidableEq

variable {τ κ β : Type}

def Access.Conflicts (a b : Access τ κ β) : Prop :=
  a.txn ≠ b.txn ∧ a.row = b.row ∧ (a.kind = .write ∨ b.kind = .write)

-- Some serial order of the committed transactions has every two conflicting accesses in the
-- order of the schedule.
def ConflictSerializable (history : List (Access τ κ β)) (committed : List τ) : Prop :=
  ∃ order : List τ, order.Perm committed ∧ order.Nodup ∧
    history.Pairwise fun a b => a.Conflicts b → a.txn ∈ committed → b.txn ∈ committed →
      [a.txn, b.txn].Sublist order

section Replay

variable [DecidableEq κ]

def Access.apply (m : κ → β) (a : Access τ κ β) : κ → β :=
  match a.kind with
  | .read => m
  | .write => Function.update m a.row a.value

def replay (init : κ → β) (history : List (Access τ κ β)) : κ → β :=
  history.foldl Access.apply init

def Legal (init : κ → β) (history : List (Access τ κ β)) : Prop :=
  ∀ p a q, history = p ++ a :: q → a.kind = .read → a.value = replay init p a.row

theorem replay_concat (init : κ → β) (history : List (Access τ κ β)) (a : Access τ κ β) :
    replay init (history ++ [a]) = a.apply (replay init history) := by
  rw [replay, foldl_append]
  rfl

theorem Legal.nil (init : κ → β) : Legal init ([] : List (Access τ κ β)) := by
  intro p a q h
  simp at h

theorem Legal.concat {init : κ → β} {history : List (Access τ κ β)} {a : Access τ κ β}
    (h : Legal init history) (ha : a.kind = .read → a.value = replay init history a.row) :
    Legal init (history ++ [a]) := by
  intro p b q heq hread
  rcases eq_nil_or_concat q with rfl | ⟨q', c, rfl⟩
  · obtain ⟨rfl, hb⟩ := append_inj' heq rfl
    obtain rfl : a = b := head_eq_of_cons_eq hb
    exact ha hread
  · rw [concat_eq_append, ← cons_append, ← append_assoc] at heq
    exact h p b q' (append_inj' heq rfl).1 hread

end Replay

-- `t` is done, and is in front of `t'` among the committed if both are committed.
def Before (done : τ → Prop) (committed : List τ) (t t' : τ) : Prop :=
  done t ∧ (t ∈ committed → t' ∈ committed → [t, t'].Sublist committed)

-- Two-phase locking: who has made an access keeps its lock until it is done, and is done
-- before a conflicting lock is taken.
structure TwoPhase (holds : τ → κ → LockKind → Prop) (done : τ → Prop) (committed : List τ)
    (history : List (Access τ κ β)) : Prop where
  nodup : committed.Nodup
  done_of_mem : ∀ t ∈ committed, done t
  covered : ∀ a ∈ history, done a.txn ∨ ∃ kind, kind.Permits a.kind ∧ holds a.txn a.row kind
  locked : ∀ a ∈ history, ∀ t kind, holds t a.row kind → a.txn ≠ t →
    a.kind = .write ∨ kind = .write → Before done committed a.txn t
  ordered : history.Pairwise fun a b => a.Conflicts b → Before done committed a.txn b.txn

-- Nobody but `t` holds a lock on `k` that conflicts with one of this kind.
def Compatible (holds : τ → κ → LockKind → Prop) (t : τ) (k : κ) (kind : LockKind) : Prop :=
  ∀ t' kind', holds t' k kind' → t' ≠ t → kind = .read ∧ kind' = .read

namespace TwoPhase

variable {holds holds' : τ → κ → LockKind → Prop} {done done' : τ → Prop} {committed : List τ}
  {history : List (Access τ κ β)} {t : τ} {k : κ} {kind : LockKind}

theorem nil (done : τ → Prop) :
    TwoPhase (fun _ _ _ => False) done [] ([] : List (Access τ κ β)) :=
  ⟨nodup_nil, by simp, by simp, by simp, List.Pairwise.nil⟩

section

variable (h : TwoPhase holds done committed history)

include h

theorem conflictSerializable : ConflictSerializable history committed := by
  refine ⟨committed, .refl _, h.nodup, h.ordered.imp ?_⟩
  intro a b hbefore hconflicts
  exact (hbefore hconflicts).2

theorem acquire (hactive : ¬ done t) (hfree : Compatible holds t k kind)
    (hmono : ∀ t' k' kind', holds t' k' kind' → holds' t' k' kind')
    (hnew : ∀ t' k' kind', holds' t' k' kind' → holds t' k' kind' ∨
      (t' = t ∧ k' = k ∧ kind' = kind)) :
    TwoPhase holds' done committed history := by
  refine ⟨h.nodup, h.done_of_mem, ?_, ?_, h.ordered⟩
  · intro a ha
    rcases h.covered a ha with hdone | ⟨kind', hpermits, hholds⟩
    · exact .inl hdone
    · exact .inr ⟨kind', hpermits, hmono _ _ _ hholds⟩
  · intro a ha t' kind' hholds hne hwrite
    rcases hnew _ _ _ hholds with hholds | ⟨rfl, rfl, rfl⟩
    · exact h.locked a ha t' kind' hholds hne hwrite
    · -- the lock under which `a` was made is gone
      rcases h.covered a ha with hdone | ⟨lock, hpermits, hlock⟩
      · refine ⟨hdone, fun _ hmem => absurd (h.done_of_mem _ hmem) hactive⟩
      · obtain ⟨hread, rfl⟩ := hfree _ _ hlock hne
        rcases hpermits with hpermits | hpermits
        · cases hpermits
        · rw [hread, hpermits] at hwrite
          rcases hwrite with hwrite | hwrite <;> cases hwrite

theorem access {a : Access τ κ β} (hholds : holds a.txn a.row kind) (hpermits : kind.Permits a.kind)
    (hfree : Compatible holds a.txn a.row kind) :
    TwoPhase holds done committed (history ++ [a]) := by
  refine ⟨h.nodup, h.done_of_mem, ?_, ?_, ?_⟩
  · intro b hb
    rcases mem_append.mp hb with hb | hb
    · exact h.covered b hb
    · rw [mem_singleton] at hb
      exact .inr ⟨kind, hb ▸ hpermits, hb ▸ hholds⟩
  · intro b hb t' kind' hholds' hne hwrite
    rcases mem_append.mp hb with hb | hb
    · exact h.locked b hb t' kind' hholds' hne hwrite
    · rw [mem_singleton] at hb
      subst hb
      obtain ⟨rfl, rfl⟩ := hfree _ _ hholds' (Ne.symm hne)
      rcases hpermits with hpermits | hpermits
      · cases hpermits
      · rw [hpermits] at hwrite
        rcases hwrite with hwrite | hwrite <;> cases hwrite
  · rw [pairwise_append]
    refine ⟨h.ordered, pairwise_singleton _ _, ?_⟩
    intro b hb c hc ⟨hne, hrow, hwrite⟩
    rw [mem_singleton] at hc
    subst hc
    refine h.locked b hb c.txn kind (hrow ▸ hholds) hne (hwrite.imp_right fun hc => ?_)
    rcases hpermits with hpermits | hpermits
    · exact hpermits
    · rw [hc] at hpermits
      cases hpermits

theorem commit (hactive : ¬ done t) (hdone : ∀ t', done' t' ↔ done t' ∨ t' = t) :
    TwoPhase holds done' (committed ++ [t]) history := by
  have hnot : t ∉ committed := fun hmem => hactive (h.done_of_mem t hmem)
  have hbefore : ∀ t₁ t₂, Before done committed t₁ t₂ → Before done' (committed ++ [t]) t₁ t₂ := by
    rintro t₁ t₂ ⟨hdone₁, horder⟩
    refine ⟨(hdone t₁).mpr (.inl hdone₁), fun hmem₁ hmem₂ => ?_⟩
    have hmem₁ : t₁ ∈ committed := by
      rcases mem_append.mp hmem₁ with hmem | hmem
      · exact hmem
      · rw [mem_singleton] at hmem
        exact absurd (hmem ▸ hdone₁) hactive
    rcases mem_append.mp hmem₂ with hmem | hmem
    · exact (horder hmem₁ hmem).trans (sublist_append_left _ _)
    · rw [mem_singleton] at hmem
      rw [hmem]
      exact (singleton_sublist.mpr hmem₁).append (List.Sublist.refl [t])
  refine ⟨?_, ?_, ?_, ?_, ?_⟩
  · rw [← concat_eq_append]
    exact h.nodup.concat hnot
  · intro t' hmem
    rw [mem_append, mem_singleton] at hmem
    exact (hdone t').mpr (hmem.imp_left (h.done_of_mem t'))
  · intro a ha
    exact (h.covered a ha).imp_left fun hd => (hdone _).mpr (.inl hd)
  · intro a ha t' kind' hholds hne hwrite
    exact hbefore _ _ (h.locked a ha t' kind' hholds hne hwrite)
  · exact h.ordered.imp fun hab hconflicts => hbefore _ _ (hab hconflicts)

theorem release (hdone : ∀ t', done t' → done' t')
    (hholds : ∀ t' k' kind', holds' t' k' kind' → holds t' k' kind')
    (hgone : ∀ t' k' kind', holds t' k' kind' → done' t' ∨ holds' t' k' kind') :
    TwoPhase holds' done' committed history := by
  have hbefore : ∀ t₁ t₂, Before done committed t₁ t₂ → Before done' committed t₁ t₂ :=
    fun t₁ t₂ hb => ⟨hdone t₁ hb.1, hb.2⟩
  refine ⟨h.nodup, fun t' hmem => hdone t' (h.done_of_mem t' hmem), ?_, ?_, ?_⟩
  · intro a ha
    rcases h.covered a ha with hd | ⟨kind', hpermits, hlock⟩
    · exact .inl (hdone _ hd)
    · exact (hgone _ _ _ hlock).imp_right fun hlock' => ⟨kind', hpermits, hlock'⟩
  · intro a ha t' kind' hlock hne hwrite
    exact hbefore _ _ (h.locked a ha t' kind' (hholds _ _ _ hlock) hne hwrite)
  · exact h.ordered.imp fun hab hconflicts => hbefore _ _ (hab hconflicts)

end

end TwoPhase

end Schedule

end Tigon.Library
