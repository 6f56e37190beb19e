import Mathlib.Data.List.Induction
import Mathlib.Data.List.Perm.Basic
import Mathlib.Data.List.Sort

namespace Tigon.Library

open Function List

namespace SnapshotOrder

variable {τ κ α : Type} [DecidableEq κ]

def install (db : κ → α) (writes : List (κ × α)) : κ → α :=
  writes.foldl (fun db w => update db w.1 w.2) db

variable {db : κ → α} {k : κ}

theorem install_of_notMem {writes : List (κ × α)} (h : k ∉ writes.map Prod.fst) :
    install db writes k = db k := by
  induction writes generalizing db with
  | nil => rfl
  | cons w writes ih =>
    simp only [map_cons, mem_cons, not_or] at h
    exact (ih h.2).trans (update_of_ne h.1 _ _)

theorem install_of_mem {db' : κ → α} {writes : List (κ × α)} (h : k ∈ writes.map Prod.fst) :
    install db writes k = install db' writes k := by
  induction writes generalizing db db' with
  | nil => cases h
  | cons w writes ih =>
    by_cases hk : k ∈ writes.map Prod.fst
    · exact ih hk
    · have hw : k = w.1 := by
        rw [map_cons, mem_cons] at h
        exact h.resolve_right hk
      refine (install_of_notMem hk).trans (Eq.trans ?_ (install_of_notMem hk).symm)
      dsimp only
      rw [hw, update_self, update_self]

theorem install_congr {db' : κ → α} (writes : List (κ × α)) (h : db k = db' k) :
    install db writes k = install db' writes k := by
  by_cases hk : k ∈ writes.map Prod.fst
  · exact install_of_mem hk
  · rw [install_of_notMem hk, install_of_notMem hk, h]

theorem install_comm {ws ws' : List (κ × α)} (h : ∀ k ∈ ws.map Prod.fst, k ∉ ws'.map Prod.fst) :
    install (install db ws) ws' = install (install db ws') ws := by
  funext k
  by_cases hk : k ∈ ws.map Prod.fst
  · rw [install_of_notMem (h k hk)]
    exact install_of_mem hk
  · rw [install_of_notMem hk]
    exact install_congr ws' (install_of_notMem hk)

-- Transactions that each take a store to some writes: one after another, and all at once from
-- one snapshot.
variable (writes : τ → (κ → α) → List (κ × α))

def serial (db : κ → α) (ts : List τ) : κ → α :=
  ts.foldl (fun db t => install db (writes t db)) db

def atOnce (snapshot : κ → α) (ts : List τ) (db : κ → α) : κ → α :=
  ts.foldl (fun db t => install db (writes t snapshot)) db

def Disjoint (db : κ → α) (t u : τ) : Prop :=
  ∀ k ∈ (writes t db).map Prod.fst, k ∉ (writes u db).map Prod.fst

variable {writes}

theorem atOnce_perm {snapshot : κ → α} {ts us : List τ} (hperm : ts.Perm us)
    (hdisjoint : ∀ t ∈ ts, ∀ u ∈ ts, t = u ∨ Disjoint writes snapshot t u) (db : κ → α) :
    atOnce writes snapshot ts db = atOnce writes snapshot us db := by
  refine hperm.foldl_eq' (fun t ht u hu db => ?_) db
  rcases hdisjoint t ht u hu with rfl | h
  · rfl
  · exact install_comm h

theorem atOnce_of_notMem {snapshot : κ → α} {ts : List τ}
    (h : ∀ t ∈ ts, k ∉ (writes t snapshot).map Prod.fst) :
    atOnce writes snapshot ts db k = db k := by
  induction ts generalizing db with
  | nil => rfl
  | cons t ts ih =>
    obtain ⟨ht, hts⟩ := forall_mem_cons.mp h
    exact (ih hts).trans (install_of_notMem ht)

section Execution

variable {ω : Type} (out : τ → (κ → α) → ω) (reads : τ → (κ → α) → List κ)

-- What a transaction does depends on what it reads.
def ReadsAll (out : τ → (κ → α) → ω) (reads : τ → (κ → α) → List κ) : Prop :=
  ∀ t db db', (∀ k ∈ reads t db, db' k = db k) → out t db' = out t db

variable {out reads} (hout : ReadsAll out reads) (hwrites : ReadsAll writes reads)

include hout hwrites

theorem serial_eq_atOnce {snapshot : κ → α} {ts : List τ}
    (hunread : ts.Pairwise fun t u =>
      ∀ k ∈ (writes t snapshot).map Prod.fst, k ∉ reads u snapshot) :
    serial writes snapshot ts = atOnce writes snapshot ts snapshot ∧
      ∀ pre t post, ts = pre ++ t :: post →
        out t (serial writes snapshot pre) = out t snapshot := by
  -- from the end, as the store behind a list is that behind its front
  induction ts using List.reverseRecOn with
  | nil => exact ⟨rfl, by simp⟩
  | append_singleton ts t ih =>
    obtain ⟨hfront, -, hlast⟩ := pairwise_append.mp hunread
    obtain ⟨heq, hall⟩ := ih hfront
    have hsame : ∀ k ∈ reads t snapshot, serial writes snapshot ts k = snapshot k := by
      intro k hk
      rw [heq]
      exact atOnce_of_notMem fun u hu hmem => hlast u hu t (mem_singleton_self t) k hmem hk
    refine ⟨?_, ?_⟩
    · rw [serial, atOnce, foldl_append, foldl_append]
      change install (serial writes snapshot ts) (writes t (serial writes snapshot ts))
        = install (atOnce writes snapshot ts snapshot) (writes t snapshot)
      rw [hwrites t snapshot _ hsame, heq]
    · intro pre u post hsplit
      rcases eq_nil_or_concat' post with rfl | ⟨post, v, rfl⟩
      · obtain ⟨rfl, hu⟩ := append_inj' hsplit rfl
        rw [← (List.cons.inj hu).1]
        exact hout t snapshot _ hsame
      · rw [← cons_append, ← append_assoc] at hsplit
        obtain ⟨hts, -⟩ := append_inj' hsplit rfl
        exact hall pre u post hts

end Execution

end SnapshotOrder

end Tigon.Library
