import Tigon.BTreeOLC.BPlusTree.Search
import Tigon.Library.SeparatedList

namespace Tigon.BTreeOLC.BPlusTree

open List BTreeInner Tigon.Library

variable {K V : Type} [LinearOrder K]

-- The capacities for which count_ does not overflow and every half of a full inner node keeps
-- a key.
structure Params.Roomy (p : Params K) : Prop where
  leaf_ge : 3 ≤ p.leafMax
  leaf_lt : p.leafMax < 2 ^ 16
  inner_ge : 5 ≤ p.innerMax
  inner_le : p.innerMax ≤ 2 ^ 16

namespace Node

def entries (h : Nat) (n : Node K V h) : List (K × V) :=
  (leaves h n).flatMap BTreeLeaf.entries

-- A node with keys above `lo` and up to `hi`. The nodes below it have an entry or a key at
-- least; the node itself may have lost its last one.
def Loose (p : Params K) : (h : Nat) → Option K → Option K → Node K V h → Prop
  | 0, lo, hi, (l : BTreeLeaf K V) => l.entries.Pairwise (fun a b => a.1 < b.1) ∧
      (∀ e ∈ l.entries, Over lo e.1 ∧ UpTo hi e.1) ∧ l.entries.length ≤ p.leafMax
  | h + 1, lo, hi, (n : BTreeInner K (Node K V h)) =>
      Separated (Loose p h) lo n.keys n.children hi ∧
      (∀ c ∈ n.children, 1 ≤ count h c) ∧ n.keys.length + 1 ≤ p.innerMax

def WF (p : Params K) (h : Nat) (lo hi : Option K) (n : Node K V h) : Prop :=
  Loose p h lo hi n ∧ 1 ≤ count h n

end Node

section Equations

variable (p : Params K) {h : Nat} (n : BTreeInner K (Node K V h)) (k : K)

theorem Node.leafFor_succ :
    Node.leafFor (V := V) (h + 1) n k = (n.childFor k).bind fun c => leafFor h c k := rfl

theorem Node.splitFull_succ : Node.splitFull (V := V) p (h + 1) n k =
    if n.isFull p then some (n.split p)
    else (n.childFor k).bind fun c => (splitFull p h c k).map fun g =>
      .one (n.place (lowerBound n.keys k) g) := rfl

theorem Node.modifyLeaf_succ (f : BTreeLeaf K V → Grown K (BTreeLeaf K V)) :
    Node.modifyLeaf f (h + 1) n k = match n.childFor k with
      | none => .one n
      | some c => .one (n.place (lowerBound n.keys k) (modifyLeaf f h c k)) := rfl

section

omit [LinearOrder K]

theorem Node.leaves_succ : Node.leaves (V := V) (h + 1) n = n.children.flatMap (leaves h) := rfl

theorem Node.entries_zero (l : BTreeLeaf K V) : Node.entries (V := V) 0 l = l.entries :=
  flatMap_singleton ..

theorem Node.entries_succ : Node.entries (V := V) (h + 1) n = n.children.flatMap (entries h) := by
  rw [entries, leaves_succ, flatMap_assoc]
  rfl

end

end Equations

open Node

variable {p : Params K} {lo hi : Option K} {k : K}

theorem Node.Loose.entries_sorted {h : Nat} {n : Node K V h} (hn : Loose p h lo hi n) :
    (entries h n).Pairwise (fun a b => a.1 < b.1) ∧
      ∀ e ∈ entries h n, Over lo e.1 ∧ UpTo hi e.1 := by
  induction h generalizing lo hi with
  | zero =>
    rw [entries_zero n]
    exact ⟨hn.1, hn.2.1⟩
  | succ h ih =>
    rw [entries_succ n]
    exact Separated.entries_sorted (fun _ _ _ hc => ih hc) hn.1

structure Parted (k : K) (es₁ es₂ : List (K × V)) : Prop where
  lt : ∀ e ∈ es₁, e.1 < k
  gt : ∀ e ∈ es₂, k < e.1

theorem Parted.append {es₁ es₂ fs₁ fs₂ : List (K × V)} (h : Parted k es₁ es₂)
    (h' : Parted k fs₁ fs₂) : Parted k (fs₁ ++ es₁) (es₂ ++ fs₂) where
  lt := fun e he => (mem_append.mp he).elim (h'.lt e) (h.lt e)
  gt := fun e he => (mem_append.mp he).elim (h.gt e) (h'.gt e)

theorem Parted.lookup_append {es₁ es₂ : List (K × V)} (h : Parted k es₁ es₂)
    (es : List (K × V)) :
    (es₁ ++ (es ++ es₂)).lookup k = es.lookup k := by
  have hne : ∀ fs : List (K × V), (∀ e ∈ fs, e.1 ≠ k) → fs.lookup k = none := by
    intro fs hfs
    rw [lookup_eq_none_iff]
    intro e he
    simpa using (hfs e he).symm
  rw [List.lookup_append, hne es₁ fun e he => ne_of_lt (h.lt e he), Option.none_or,
    List.lookup_append, hne es₂ fun e he => ne_of_gt (h.gt e he), Option.or_none]

namespace BTreeLeaf

theorem parts (l : BTreeLeaf K V) (hsorted : l.entries.Pairwise (fun a b => a.1 < b.1)) (k : K) :
    ∃ es₁ es₂, Parted k es₁ es₂ ∧ lowerBound l.keys k = es₁.length ∧
      (l.contains k = true ∧ (∃ v, l.entries = es₁ ++ (k, v) :: es₂) ∨
        l.contains k = false ∧ l.entries = es₁ ++ es₂) := by
  obtain ⟨es₁, es₂, heq, hlt, hge⟩ := exists_partition Prod.fst hsorted k
  have hkeys : l.keys = es₁.map Prod.fst ++ es₂.map Prod.fst := by
    rw [keys, heq, map_append]
  have hbound : lowerBound l.keys k = es₁.length := by
    have hsorted' : l.keys.Pairwise (· < ·) := pairwise_map.mpr hsorted
    rw [hkeys] at hsorted' ⊢
    rw [lowerBound_append hsorted', length_map]
    · exact fun x hx => by
        obtain ⟨e, he, rfl⟩ := mem_map.mp hx
        exact hlt e he
    · exact fun x hx => by
        obtain ⟨e, he, rfl⟩ := mem_map.mp hx
        exact hge e he
  have hat : l.keys[lowerBound l.keys k]? = (es₂.map Prod.fst)[0]? := by
    rw [hbound, hkeys, List.getElem?_append_right (Nat.le_of_eq (length_map _)),
      length_map, Nat.sub_self]
  cases es₂ with
  | nil =>
    refine ⟨es₁, [], ⟨hlt, forall_mem_nil _⟩, hbound, .inr ⟨?_, heq⟩⟩
    rw [contains, hat]
    rfl
  | cons e es₂ =>
    rw [heq] at hsorted
    have htail := (pairwise_cons.mp (pairwise_append.mp hsorted).2.1).1
    rcases eq_or_lt_of_le (hge e mem_cons_self) with hk | hk
    · refine ⟨es₁, es₂, ⟨hlt, fun e' he' => ?_⟩, hbound, .inl ⟨?_, e.2, ?_⟩⟩
      · rw [hk]
        exact htail e' he'
      · rw [contains, hat, hk]
        simp
      · rw [heq, hk]
    · refine ⟨es₁, e :: es₂, ⟨hlt, forall_mem_cons.mpr ⟨hk, ?_⟩⟩, hbound, .inr ⟨?_, heq⟩⟩
      · exact fun e' he' => lt_trans hk (htail e' he')
      · rw [contains, hat]
        simp [ne_of_gt hk]

theorem lookup_eq (l : BTreeLeaf K V) (hsorted : l.entries.Pairwise (fun a b => a.1 < b.1)) :
    l.lookup k = l.entries.lookup k := by
  obtain ⟨es₁, es₂, hparts, hbound, ⟨hc, v, heq⟩ | ⟨hc, heq⟩⟩ := l.parts hsorted k
  · have hlookup := hparts.lookup_append [(k, v)]
    rw [lookup, if_pos hc, hbound, heq, List.getElem?_append_right (Nat.le_refl _), Nat.sub_self]
    simpa using hlookup.symm
  · have hlookup := hparts.lookup_append []
    rw [lookup, if_neg (by simp [hc]), heq]
    simpa using hlookup.symm

end BTreeLeaf

-- The way of a key through an inner node: the child it goes to, with its bounds, and what
-- may take the place of the child.
structure Focus {C : Type} (P : Option K → Option K → C → Prop) (lo hi : Option K)
    (n : BTreeInner K C) (k : K) (ks₁ ks₂ : List K) (cs₁ : List C) (c : C) (cs₂ : List C)
    (lo' hi' : Option K) : Prop where
  keys_eq : n.keys = ks₁ ++ ks₂
  children_eq : n.children = cs₁ ++ c :: cs₂
  length_eq : cs₁.length = ks₁.length
  sorted : (ks₁ ++ ks₂).Pairwise (· < ·)
  lt : ∀ x ∈ ks₁, x < k
  ge : ∀ x ∈ ks₂, k ≤ x
  child : P lo' hi' c
  above : Over lo' k
  upTo : UpTo hi' k
  above_iff : ∀ m, Over lo' m → Over lo m ∧ ∀ x ∈ ks₁, x < m
  upTo_iff : ∀ m, UpTo hi' m → UpTo hi m ∧ ∀ x ∈ ks₂, m ≤ x
  plug : ∀ ts ms, Separated P lo' ts ms hi' →
    Separated P lo (ks₁ ++ ts ++ ks₂) (cs₁ ++ ms ++ cs₂) hi

namespace Focus

variable {C : Type} {P : Option K → Option K → C → Prop} {n : BTreeInner K C}
  {ks₁ ks₂ : List K} {cs₁ cs₂ : List C} {c : C} {lo' hi' : Option K}

theorem exists_focus (hn : Separated P lo n.keys n.children hi) (hlo : Over lo k)
    (hhi : UpTo hi k) :
    ∃ ks₁ ks₂ cs₁ c cs₂ lo' hi', Focus P lo hi n k ks₁ ks₂ cs₁ c cs₂ lo' hi' := by
  obtain ⟨ks₁, ks₂, hkeys, hlt, hge⟩ := exists_partition id hn.sorted k
  have hlength := hn.length_eq
  obtain ⟨cs₁, rest, hrest, hlength₁⟩ : ∃ cs₁ rest, n.children = cs₁ ++ rest ∧
      cs₁.length = ks₁.length := by
    refine ⟨n.children.take ks₁.length, n.children.drop ks₁.length,
      (take_append_drop ..).symm, ?_⟩
    rw [hkeys, length_append] at hlength
    rw [length_take]
    omega
  cases rest with
  | nil =>
    rw [hkeys, hrest, append_nil, length_append] at hlength
    omega
  | cons c cs₂ =>
    have hsorted := hn.sorted
    rw [hkeys, hrest] at hn
    rw [hkeys] at hsorted
    have hsep : Separated P lo (ks₁ ++ [] ++ ks₂) (cs₁ ++ [c] ++ cs₂) hi := by
      rw [append_nil, append_assoc]
      exact hn
    obtain ⟨lo', hi', hc, hover, hupTo, hover', hupTo', hplug⟩ :=
      hsep.segment hlength₁ rfl
    exact ⟨ks₁, ks₂, cs₁, c, cs₂, lo', hi', hkeys, hrest, hlength₁, hsorted, hlt, hge, hc,
      hover k hlo hlt, hupTo k hhi hge, hover', hupTo', hplug⟩

variable (hf : Focus P lo hi n k ks₁ ks₂ cs₁ c cs₂ lo' hi')

include hf

theorem lowerBound_eq : lowerBound n.keys k = ks₁.length := by
  rw [hf.keys_eq]
  exact lowerBound_append hf.sorted hf.lt hf.ge

theorem childFor_eq : n.childFor k = some c := by
  rw [childFor, hf.lowerBound_eq, hf.children_eq, ← hf.length_eq,
    List.getElem?_append_right (Nat.le_refl _), Nat.sub_self]
  rfl

theorem setChild_eq (c' : C) :
    n.setChild (lowerBound n.keys k) c' = ⟨ks₁ ++ ks₂, cs₁ ++ c' :: cs₂⟩ := by
  rw [setChild, hf.lowerBound_eq, hf.keys_eq, hf.children_eq, ← hf.length_eq,
    set_append_right _ _ (Nat.le_refl _), Nat.sub_self]
  rfl

theorem place_two_eq {l r : C} {sep : K} (hlo : Over lo' sep) (hhi : UpTo hi' sep)
    (hlength : cs₂.length = ks₂.length) (hcount : (ks₁ ++ ks₂).length + 1 < 2 ^ 16) :
    n.place (lowerBound n.keys k) (.two l sep r)
      = ⟨ks₁ ++ sep :: ks₂, cs₁ ++ l :: r :: cs₂⟩ := by
  have hbound : lowerBound (ks₁ ++ ks₂) sep = ks₁.length :=
    lowerBound_append hf.sorted (hf.above_iff sep hlo).2 (hf.upTo_iff sep hhi).2
  have hchildren : (cs₁ ++ l :: cs₂).insertIdx (ks₁.length + 1) r = cs₁ ++ l :: r :: cs₂ := by
    have hinsert := insertIdx_append_length (cs₁ ++ [l]) cs₂ r
    rw [length_append, length_singleton, hf.length_eq] at hinsert
    simpa using hinsert
  rw [BTreeInner.place, hf.setChild_eq, BTreeInner.insert]
  dsimp only
  rw [hbound, insertIdx_append_length, hchildren, BTreeInner.ofLists_of_lt]
  · simp only [length_append, length_cons] at hcount ⊢
    omega
  · have hlength₁ := hf.length_eq
    simp only [length_append, length_cons]
    omega

end Focus

end Tigon.BTreeOLC.BPlusTree
