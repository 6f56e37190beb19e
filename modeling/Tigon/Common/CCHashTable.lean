import Mathlib.Logic.Function.Basic
import Tigon.Library.Transition

namespace Tigon.Common

open Function Tigon.Library

-- A row is a pointer and `none` is the null pointer. A call without a result is one in which a
-- CHECK fails.
variable {ρ : Type}

structure CCSet (ρ : Type) where
  rows : Nat → Option ρ
  cur_size : Nat

namespace CCSet

def max_capacity : Nat := 5

def clear : CCSet ρ := ⟨fun _ => none, 0⟩

def shift (rows : Nat → Option ρ) (index last : Nat) : Nat → Option ρ :=
  (List.range' index (last - index)).foldl (fun rows i => update rows i (rows (i + 1))) rows

-- The set has no row, or only the given one.
def Holds (s : CCSet ρ) : Option (Option ρ) → Prop
  | none => s.cur_size = 0
  | some row => s.cur_size = 1 ∧ s.rows 0 = row

variable [DecidableEq ρ]

def insert (s : CCSet ρ) (row : Option ρ) : Option (CCSet ρ × Bool) :=
  if (List.range s.cur_size).any (fun i => s.rows i = row) then some (s, false)
  else if s.cur_size = max_capacity then none
  else some (⟨update s.rows s.cur_size row, s.cur_size + 1⟩, true)

def remove (s : CCSet ρ) (row : Option ρ) : CCSet ρ × Bool :=
  match (List.range s.cur_size).find? (fun i => s.rows i = row) with
  | none => (s, false)
  | some index =>
    let rows := shift (update s.rows index none) index (s.cur_size - 1)
    (⟨update rows (s.cur_size - 1) none, s.cur_size - 1⟩, true)

theorem insert_of_empty {s : CCSet ρ} (h : s.Holds none) (row : Option ρ) :
    ∃ s', s.insert row = some (s', true) ∧ s'.Holds (some row) := by
  have hsize : s.cur_size = 0 := h
  refine ⟨⟨update s.rows 0 row, 1⟩, ?_, rfl, ?_⟩
  · simp [insert, hsize, max_capacity]
  · exact update_self 0 row s.rows

theorem remove_of_single {s : CCSet ρ} {row : Option ρ} (h : s.Holds (some row)) :
    (s.remove row).1.Holds none ∧ (s.remove row).2 = true := by
  obtain ⟨hsize, hrow⟩ := h
  have hfind : (List.range s.cur_size).find? (fun i => s.rows i = row) = some 0 := by
    simp [hsize, hrow, List.range_succ]
  rw [remove, hfind]
  exact ⟨by simp [Holds, hsize], rfl⟩

end CCSet

structure CCNode (ρ : Type) where
  key : BitVec 64
  rows : CCSet ρ

-- The nodes from `first_node` on.
abbrev CCBucket (ρ : Type) := List (CCNode ρ)

namespace CCBucket

def find_node (b : CCBucket ρ) (key : BitVec 64) : Option (CCNode ρ) := b.find? (·.key = key)

-- The store through the pointer that `find_node` returns.
def setRows (key : BitVec 64) (rows : CCSet ρ) : CCBucket ρ → CCBucket ρ
  | [] => []
  | node :: next =>
    if node.key = key then { node with rows } :: next else node :: setRows key rows next

def search (b : CCBucket ρ) (key : BitVec 64) : Option (Option ρ) :=
  match b.find_node key with
  | none => some none
  | some node =>
    if node.rows.cur_size = 0 then some none
    else if node.rows.cur_size = 1 then some (node.rows.rows 0)
    else none

-- A key without a row may have an emptied node.
def Stores (b : CCBucket ρ) (key : BitVec 64) (r : Option (Option ρ)) : Prop :=
  match b.find_node key with
  | none => r = none
  | some node => node.rows.Holds r

theorem find_node_setRows (b : CCBucket ρ) (key other : BitVec 64) (rows : CCSet ρ) :
    (setRows key rows b).find_node other =
      if other = key then (b.find_node key).map fun node => { node with rows }
      else b.find_node other := by
  induction b with
  | nil => simp [setRows, find_node]
  | cons node next ih =>
    by_cases hnode : node.key = key
    · by_cases hother : other = key
      · simp [setRows, find_node, hnode, hother]
      · have hne : node.key ≠ other := fun h => hother (h.symm.trans hnode)
        simp [setRows, find_node, hnode, hother, Ne.symm hother]
    · simp only [setRows, hnode, if_false, find_node, List.find?_cons] at ih ⊢
      by_cases hother : other = key
      · subst hother
        simpa [hnode] using ih
      · rw [ih, if_neg hother, if_neg hother]

variable {b : CCBucket ρ} {key : BitVec 64}

theorem search_of_stores {r : Option (Option ρ)} (h : b.Stores key r) :
    b.search key = some r.join := by
  unfold Stores at h
  unfold search
  split at h
  · rw [h, Option.join_none]
  · cases r with
    | none => exact if_pos h
    | some row => simp [h.1, h.2]

variable [DecidableEq ρ]

def insert (b : CCBucket ρ) (key : BitVec 64) (row : Option ρ) : Option (CCBucket ρ × Bool) :=
  match b.find_node key with
  | none => (CCSet.clear.insert row).map fun r => (⟨key, r.1⟩ :: b, r.2)
  | some node => (node.rows.insert row).map fun r => (setRows key r.1 b, r.2)

def remove (b : CCBucket ρ) (key : BitVec 64) (row : Option ρ) : CCBucket ρ × Bool :=
  match b.find_node key with
  | none => (b, false)
  | some node => (setRows key (node.rows.remove row).1 b, (node.rows.remove row).2)

theorem insert_of_stores (h : b.Stores key none) (row : Option ρ) :
    ∃ b', b.insert key row = some (b', true) ∧ b'.Stores key (some row) ∧
      ∀ other ≠ key, b'.find_node other = b.find_node other := by
  unfold Stores at h
  unfold insert
  split at h
  · obtain ⟨rows, hinsert, hholds⟩ := @CCSet.insert_of_empty ρ _ CCSet.clear rfl row
    refine ⟨⟨key, rows⟩ :: b, by rw [hinsert]; rfl, ?_, fun other hother => ?_⟩
    · simpa [Stores, find_node] using hholds
    · simp [find_node, Ne.symm hother]
  · next node hfind =>
    obtain ⟨rows, hinsert, hholds⟩ := CCSet.insert_of_empty h row
    refine ⟨setRows key rows b, by rw [hinsert]; rfl, ?_, fun other hother => ?_⟩
    · simpa [Stores, find_node_setRows, hfind] using hholds
    · rw [find_node_setRows, if_neg hother]

theorem remove_of_stores {row : Option ρ} (h : b.Stores key (some row)) :
    (b.remove key row).2 = true ∧ (b.remove key row).1.Stores key none ∧
      ∀ other ≠ key, (b.remove key row).1.find_node other = b.find_node other := by
  unfold Stores at h
  unfold remove
  split at h
  · cases h
  · next node hfind =>
    obtain ⟨hholds, hremoved⟩ := CCSet.remove_of_single h
    refine ⟨hremoved, ?_, fun other hother => ?_⟩
    · simpa [Stores, find_node_setRows, hfind] using hholds
    · rw [find_node_setRows, if_neg hother]

end CCBucket

structure CCHashTable (ρ : Type) where
  bucket_cnt : BitVec 64
  buckets : BitVec 64 → CCBucket ρ

namespace CCHashTable

def construct (bucket_cnt : BitVec 64) : CCHashTable ρ := ⟨bucket_cnt, fun _ => []⟩

def hash (t : CCHashTable ρ) (key : BitVec 64) : BitVec 64 :=
  (key ^^^ (key / t.bucket_cnt)) % t.bucket_cnt

def search (t : CCHashTable ρ) (key : BitVec 64) : Option (Option ρ) :=
  (t.buckets (t.hash key)).search key

def setBucket (t : CCHashTable ρ) (key : BitVec 64) (b : CCBucket ρ) : CCHashTable ρ :=
  { t with buckets := update t.buckets (t.hash key) b }

-- The map that the table stands for. A stored row may be the null pointer.
abbrev Map (ρ : Type) := BitVec 64 → Option (Option ρ)

inductive Op (ρ : Type)
  | search (key : BitVec 64)
  | insert (key : BitVec 64) (row : Option ρ)
  | remove (key : BitVec 64) (row : Option ρ)

namespace Op

def key : Op ρ → BitVec 64
  | search key | insert key _ | remove key _ => key

def apply (m : Map ρ) : Op ρ → Map ρ
  | search _ => m
  | insert key row => update m key (some row)
  | remove key _ => update m key none

theorem apply_of_ne (op : Op ρ) (m : Map ρ) {other : BitVec 64} (h : other ≠ op.key) :
    op.apply m other = m other := by
  cases op with
  | search => rfl
  | insert | remove => exact update_of_ne h ..

def Admitted (s : CCHashTable ρ × Map ρ) : Op ρ → Prop
  | search _ => True
  | insert key _ => s.2 key = none
  | remove key row => s.2 key = some row

end Op

structure Refines (bucket_cnt : BitVec 64) (s : CCHashTable ρ × Map ρ) : Prop where
  bucket_cnt_eq : s.1.bucket_cnt = bucket_cnt
  stores : ∀ key, (s.1.buckets (s.1.hash key)).Stores key (s.2 key)

variable {bucket_cnt : BitVec 64} {s : CCHashTable ρ × Map ρ}

namespace Refines

theorem setBucket (h : Refines bucket_cnt s) {key : BitVec 64} {b : CCBucket ρ}
    {r : Option (Option ρ)} (hkey : b.Stores key r)
    (hother : ∀ other ≠ key, b.find_node other = (s.1.buckets (s.1.hash key)).find_node other) :
    Refines bucket_cnt (s.1.setBucket key b, update s.2 key r) := by
  refine ⟨h.bucket_cnt_eq, fun other => ?_⟩
  change (update s.1.buckets (s.1.hash key) b (s.1.hash other)).Stores other
    (update s.2 key r other)
  by_cases hne : other = key
  · subst hne
    rwa [update_self, update_self]
  · rw [update_of_ne hne]
    -- The keys that share the bucket are found in it as before.
    by_cases hshared : s.1.hash other = s.1.hash key
    · rw [hshared, update_self, CCBucket.Stores, hother other hne, ← hshared]
      exact h.stores other
    · rw [update_of_ne hshared]
      exact h.stores other

theorem search (h : Refines bucket_cnt s) (key : BitVec 64) :
    s.1.search key = some (s.2 key).join :=
  CCBucket.search_of_stores (h.stores key)

end Refines

variable [DecidableEq ρ]

def insert (t : CCHashTable ρ) (key : BitVec 64) (row : Option ρ) :
    Option (CCHashTable ρ × Bool) :=
  ((t.buckets (t.hash key)).insert key row).map fun r => (t.setBucket key r.1, r.2)

def remove (t : CCHashTable ρ) (key : BitVec 64) (row : Option ρ) : CCHashTable ρ × Bool :=
  let r := (t.buckets (t.hash key)).remove key row
  (t.setBucket key r.1, r.2)

def Op.call (t : CCHashTable ρ) : Op ρ → Option (CCHashTable ρ)
  | search key => (t.search key).map fun _ => t
  | insert key row => (t.insert key row).map Prod.fst
  | remove key row => some (t.remove key row).1

def step (s : CCHashTable ρ × Map ρ) (op : Op ρ) : Option (CCHashTable ρ × Map ρ) :=
  (op.call s.1).map fun t => (t, op.apply s.2)

theorem Refines.step (h : Refines bucket_cnt s) {op : Op ρ} (hadmitted : op.Admitted s) :
    ∃ s', CCHashTable.step s op = some s' ∧ Refines bucket_cnt s' := by
  cases op with
  | search key =>
    refine ⟨s, ?_, h⟩
    simp [CCHashTable.step, Op.call, h.search key, Op.apply]
  | insert key row =>
    have hkey := h.stores key
    rw [show s.2 key = none from hadmitted] at hkey
    obtain ⟨b, hinsert, hstores, hother⟩ := CCBucket.insert_of_stores hkey row
    refine ⟨_, ?_, h.setBucket hstores hother⟩
    simp [CCHashTable.step, Op.call, CCHashTable.insert, hinsert, Op.apply]
  | remove key row =>
    have hkey := h.stores key
    rw [show s.2 key = some row from hadmitted] at hkey
    obtain ⟨-, hstores, hother⟩ := CCBucket.remove_of_stores hkey
    exact ⟨_, rfl, h.setBucket hstores hother⟩

theorem table_refines_map (hpos : 0 < bucket_cnt)
    (hreach : Reach step (fun s op => op.Admitted s) (construct bucket_cnt, fun _ => none) s) :
    (∀ key, s.1.hash key < bucket_cnt ∧ s.1.search key = some (s.2 key).join) ∧
      ∀ op : Op ρ, op.Admitted s → ∃ s', step s op = some s' ∧
        ∀ other ≠ op.key, s'.1.search other = s.1.search other := by
  have hrefines : Refines bucket_cnt s := by
    refine hreach.invariant ⟨rfl, fun _ => rfl⟩ fun s op t hinv hadmitted hstep => ?_
    obtain ⟨s', hstep', hrefines'⟩ := hinv.step hadmitted
    exact Option.some.inj (hstep'.symm.trans hstep) ▸ hrefines'
  refine ⟨fun key => ⟨?_, hrefines.search key⟩, fun op hadmitted => ?_⟩
  · rw [hash, hrefines.bucket_cnt_eq]
    exact BitVec.umod_lt _ hpos
  · obtain ⟨s', hstep, hrefines'⟩ := hrefines.step hadmitted
    refine ⟨s', hstep, fun other hother => ?_⟩
    obtain ⟨t, -, rfl⟩ := Option.map_eq_some_iff.mp hstep
    rw [hrefines'.search, hrefines.search]
    exact congrArg (some ·.join) (op.apply_of_ne s.2 hother)

-- The keys 1 and 2 share the only bucket.
theorem table_refines_map_one_bucket :
    ∃ s, Reach step (fun s op => op.Admitted s) (construct 1, fun _ => none) s ∧
      s.1.search 1 = some none ∧ s.1.search 2 = some (some 8) := by
  have hreach : Reach step (fun s op => op.Admitted s) (construct 1, fun _ => none) _ :=
    .tail (e := .remove 1 (some 7)) (.tail (e := .insert 2 (some 8))
      (.tail (e := .insert 1 (some 7)) .refl (by rfl) (by rfl)) (by rfl) (by rfl)) (by rfl) (by rfl)
  have hsearch := (table_refines_map (by decide) hreach).1
  exact ⟨_, hreach, (hsearch 1).2, (hsearch 2).2⟩

end CCHashTable

end Tigon.Common
