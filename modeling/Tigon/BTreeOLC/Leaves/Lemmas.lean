import Mathlib.Data.List.TakeWhile
import Tigon.BTreeOLC.Leaves
import Tigon.Library.Neighbour

namespace Tigon.BTreeOLC

open List Tigon.Library

variable {K : Type} [LinearOrder K] {k : K} {l leaf : BTreeLeaf K} {ls leaves : List (BTreeLeaf K)}
  {next : Option (BTreeLeaf K)} {low : Option K}

inductive Ordered : Option K → List (BTreeLeaf K) → Prop
  | last {low : Option K} {l : BTreeLeaf K} (hsorted : l.keys.Pairwise (· < ·))
      (hlow : ∀ x ∈ l.keys, ∀ a ∈ low, a < x) (hupper : l.upper = none) : Ordered low [l]
  | cons {low : Option K} {l : BTreeLeaf K} {u : K} {ls : List (BTreeLeaf K)}
      (hsorted : l.keys.Pairwise (· < ·)) (hlow : ∀ x ∈ l.keys, ∀ a ∈ low, a < x)
      (hupper : l.upper = some u) (hle : ∀ x ∈ l.keys, x ≤ u) (hu : ∀ a ∈ low, a ≤ u)
      (hrest : Ordered (some u) ls) : Ordered low (l :: ls)

@[simp]
theorem mem_contents_cons : k ∈ contents (l :: ls) ↔ k ∈ l.keys ∨ k ∈ contents ls := by
  simp [contents]

@[simp]
theorem contents_nil : contents ([] : List (BTreeLeaf K)) = ∅ := rfl

theorem below_of_upper {u : K} (h : l.upper = some u) : l.below k = decide (u < k) := by
  simp [BTreeLeaf.below, h]

theorem not_below_of_upper (h : l.upper = none) : l.below k = false := by
  simp [BTreeLeaf.below, h]

theorem Ordered.lt_of_mem (h : Ordered low leaves) {a m : K} (ha : a ∈ low)
    (hm : m ∈ contents leaves) : a < m := by
  induction h generalizing a with
  | last hsorted hlow hupper =>
    rw [mem_contents_cons] at hm
    rcases hm with hm | hm
    · exact hlow m hm a ha
    · simp at hm
  | cons hsorted hlow hupper hle hu hrest ih =>
    rw [mem_contents_cons] at hm
    rcases hm with hm | hm
    · exact hlow m hm a ha
    · exact lt_of_le_of_lt (hu a ha) (ih rfl hm)

section Sorted

variable {xs : List K}

theorem lt_of_mem_takeWhile {x : K} (h : x ∈ xs.takeWhile fun y => y < k) : x < k := by
  simpa using mem_takeWhile_imp h

theorem le_of_mem_dropWhile {x : K} (hs : xs.Pairwise (· < ·))
    (h : x ∈ xs.dropWhile fun y => y < k) :
    k ≤ x := by
  induction xs with
  | nil => simp at h
  | cons y ys ih =>
    rw [pairwise_cons] at hs
    by_cases hy : y < k
    · rw [dropWhile_cons_of_pos (by simpa using hy)] at h
      exact ih hs.2 h
    · rw [dropWhile_cons_of_neg (by simpa using hy)] at h
      rcases mem_cons.mp h with rfl | h
      · exact not_lt.mp hy
      · exact (not_lt.mp hy).trans (hs.1 x h).le

theorem mem_atLeast (hs : l.keys.Pairwise (· < ·)) {x : K} :
    x ∈ l.atLeast k ↔ x ∈ l.keys ∧ k ≤ x := by
  constructor
  · intro h
    exact ⟨(dropWhile_sublist _).mem h, le_of_mem_dropWhile hs h⟩
  · rintro ⟨hx, hkx⟩
    rw [← takeWhile_append_dropWhile (p := fun y => decide (y < k)) (l := l.keys)] at hx
    rcases mem_append.mp hx with hx | hx
    · exact absurd (lt_of_mem_takeWhile hx) (not_lt.mpr hkx)
    · exact hx

theorem pairwise_atLeast (hs : l.keys.Pairwise (· < ·)) : (l.atLeast k).Pairwise (· < ·) :=
  hs.sublist (dropWhile_sublist _)

theorem pairwise_insert (hs : l.keys.Pairwise (· < ·)) (hk : k ∉ l.keys) :
    (l.before k ++ k :: l.atLeast k).Pairwise (· < ·) := by
  have hafter : ∀ x ∈ l.atLeast k, k < x := by
    intro x hx
    obtain ⟨hmem, hle⟩ := (mem_atLeast hs).mp hx
    exact lt_of_le_of_ne hle fun heq => hk (heq ▸ hmem)
  refine pairwise_append.mpr ⟨hs.sublist (takeWhile_sublist _),
    pairwise_cons.mpr ⟨hafter, pairwise_atLeast hs⟩, fun x hx y hy => ?_⟩
  have hxk : x < k := lt_of_mem_takeWhile hx
  rcases mem_cons.mp hy with rfl | hy
  · exact hxk
  · exact hxk.trans (hafter y hy)

theorem mem_insert {x : K} : x ∈ l.before k ++ k :: l.atLeast k ↔ x = k ∨ x ∈ l.keys := by
  have hsplit : x ∈ l.keys ↔ x ∈ l.before k ∨ x ∈ l.atLeast k := by
    rw [← mem_append]
    exact iff_of_eq (congrArg (x ∈ ·) takeWhile_append_dropWhile.symm)
  rw [hsplit]
  simp only [mem_append, mem_cons]
  exact or_left_comm

end Sorted

-- What the descent to a key knows of the leaf it ends at.
structure Locates (k : K) (leaves : List (BTreeLeaf K)) (leaf : BTreeLeaf K)
    (next : Option (BTreeLeaf K)) : Prop where
  sorted : leaf.keys.Pairwise (· < ·)
  mem : ∀ x ∈ leaf.keys, x ∈ contents leaves
  self : k ∈ contents leaves → k ∈ leaf.keys
  beyond : ∀ m ∈ contents leaves, k ≤ m → m ∉ leaf.keys → ∀ x ∈ leaf.keys, x < m
  last : next = none → ∀ m ∈ contents leaves, k ≤ m → m ∈ leaf.keys
  next_mem : ∀ n ∈ next, ∀ x ∈ n.keys, x ∈ contents leaves ∧ k < x
  next_least : ∀ n ∈ next, ∀ x ∈ n.keys.head?, ∀ m ∈ contents leaves, k ≤ m → m ∉ leaf.keys → x ≤ m

theorem Ordered.head_le (h : Ordered low (l :: ls)) {x m : K} (hx : x ∈ l.keys.head?)
    (hm : m ∈ contents (l :: ls)) : x ≤ m := by
  have hxl : x ∈ l.keys := mem_of_mem_head? hx
  have hhead : ∀ m ∈ l.keys, l.keys.Pairwise (· < ·) → x ≤ m := by
    intro m hm hsorted
    obtain ⟨rest, hrest⟩ := List.head?_eq_some_iff.mp hx
    rw [hrest] at hm hsorted
    rcases mem_cons.mp hm with rfl | hm
    · exact le_refl m
    · exact ((pairwise_cons.mp hsorted).1 m hm).le
  rw [mem_contents_cons] at hm
  cases h with
  | last hsorted hlow hupper =>
    rcases hm with hm | hm
    · exact hhead m hm hsorted
    · simp at hm
  | cons hsorted hlow hupper hle hu hrest =>
    rcases hm with hm | hm
    · exact hhead m hm hsorted
    · exact (hle x hxl).trans (hrest.lt_of_mem rfl hm).le

theorem Ordered.locates (h : Ordered low leaves) (hloc : locate k leaves = some (leaf, next)) :
    Locates k leaves leaf next := by
  induction h with
  | @last low l hsorted hlow hupper =>
    simp only [locate, not_below_of_upper hupper, Bool.false_eq_true, if_false, List.head?_nil,
      Option.some.injEq, Prod.mk.injEq] at hloc
    obtain ⟨rfl, rfl⟩ := hloc
    have hall : ∀ m ∈ contents [l], m ∈ l.keys := fun m hm =>
      (mem_contents_cons.mp hm).resolve_right (by simp)
    exact ⟨hsorted, fun x hx => mem_contents_cons.mpr (.inl hx), hall k,
      fun m hm _ hnot => absurd (hall m hm) hnot, fun _ m hm _ => hall m hm, nofun, nofun⟩
  | @cons low l u ls hsorted hlow hupper hle hu hrest ih =>
    rw [locate, below_of_upper hupper] at hloc
    by_cases huk : u < k
    · rw [if_pos (by simpa using huk)] at hloc
      have hl := ih hloc
      have htail : ∀ m ∈ contents (l :: ls), k ≤ m → m ∈ contents ls := by
        intro m hm hkm
        refine (mem_contents_cons.mp hm).resolve_left fun hml => ?_
        exact absurd (hkm.trans (hle m hml)) (not_le.mpr huk)
      exact ⟨hl.sorted, fun x hx => mem_contents_cons.mpr (.inr (hl.mem x hx)),
        fun hk => hl.self (htail k hk (le_refl k)),
        fun m hm hkm => hl.beyond m (htail m hm hkm) hkm,
        fun hnone m hm hkm => hl.last hnone m (htail m hm hkm) hkm,
        fun n hn x hx => ⟨mem_contents_cons.mpr (.inr (hl.next_mem n hn x hx).1),
          (hl.next_mem n hn x hx).2⟩,
        fun n hn x hx m hm hkm => hl.next_least n hn x hx m (htail m hm hkm) hkm⟩
    · rw [if_neg (by simpa using huk), Option.some.injEq, Prod.mk.injEq] at hloc
      obtain ⟨rfl, rfl⟩ := hloc
      have hku := not_lt.mp huk
      have habove : ∀ m ∈ contents ls, u < m := fun m hm => hrest.lt_of_mem rfl hm
      have htail : ∀ m ∈ contents (l :: ls), m ∉ l.keys → m ∈ contents ls := fun m hm hnot =>
        (mem_contents_cons.mp hm).resolve_left hnot
      refine ⟨hsorted, fun x hx => mem_contents_cons.mpr (.inl hx), ?_, ?_, ?_, ?_, ?_⟩
      · intro hk
        by_contra hnot
        exact absurd (habove k (htail k hk hnot)) (not_lt.mpr hku)
      · intro m hm _ hnot x hx
        exact lt_of_le_of_lt (hle x hx) (habove m (htail m hm hnot))
      · intro hnone
        rw [List.head?_eq_none_iff] at hnone
        subst hnone
        cases hrest
      · intro n hn x hx
        obtain ⟨rest, rfl⟩ := List.head?_eq_some_iff.mp hn
        have hmem : x ∈ contents (n :: rest) := mem_contents_cons.mpr (.inl hx)
        exact ⟨mem_contents_cons.mpr (.inr hmem), lt_of_le_of_lt hku (habove x hmem)⟩
      · intro n hn x hx m hm _ hnot
        obtain ⟨rest, rfl⟩ := List.head?_eq_some_iff.mp hn
        exact hrest.head_le hx (htail m hm hnot)

theorem Locates.nextIn_eq (hl : Locates k leaves leaf next) (hk : k ∉ leaf.keys) {n : K}
    (h : nextKey k leaf next = some n) : nextIn (contents leaves) k = some n := by
  rw [nextIn_eq_some]
  cases hat : leaf.atLeast k with
  | nil =>
    rw [nextKey, hat] at h
    obtain ⟨l', hl', hn⟩ := Option.bind_eq_some_iff.mp h
    obtain ⟨hmem, hlt⟩ := hl.next_mem l' hl' n (mem_of_mem_head? hn)
    refine ⟨hmem, hlt, fun m hm hkm => ?_⟩
    have hnot : m ∉ leaf.keys := by
      intro hml
      have hin : m ∈ leaf.atLeast k := (mem_atLeast hl.sorted).mpr ⟨hml, hkm.le⟩
      rw [hat] at hin
      cases hin
    exact hl.next_least l' hl' n hn m hm hkm.le hnot
  | cons x rest =>
    rw [nextKey, hat] at h
    cases h
    have hin : n ∈ leaf.atLeast k := by
      rw [hat]
      exact mem_cons_self
    obtain ⟨hnl, hle⟩ := (mem_atLeast hl.sorted).mp hin
    refine ⟨hl.mem n hnl, lt_of_le_of_ne hle fun heq => hk (heq ▸ hnl), fun m hm hkm => ?_⟩
    by_cases hml : m ∈ leaf.keys
    · have hmin : m ∈ leaf.atLeast k := (mem_atLeast hl.sorted).mpr ⟨hml, hkm.le⟩
      have hpair := pairwise_atLeast (k := k) hl.sorted
      rw [hat] at hmin hpair
      rcases mem_cons.mp hmin with rfl | hmin
      · exact le_refl m
      · exact ((pairwise_cons.mp hpair).1 m hmin).le
    · exact (hl.beyond m hm hkm.le hml n hnl).le

theorem Ordered.insertKey (h : Ordered low leaves) (hlow : ∀ a ∈ low, a < k)
    (hk : k ∉ contents leaves) :
    Ordered low (insertKey k leaves) ∧
      contents (insertKey k leaves) = insert k (contents leaves) := by
  induction h with
  | @last low l hsorted hlowl hupper =>
    rw [BTreeOLC.insertKey, not_below_of_upper hupper]
    have hkl : k ∉ l.keys := fun hmem => hk (mem_contents_cons.mpr (.inl hmem))
    refine ⟨.last (pairwise_insert hsorted hkl) ?_ hupper, ?_⟩
    · intro x hx a ha
      rcases mem_insert.mp hx with rfl | hx
      · exact hlow a ha
      · exact hlowl x hx a ha
    · ext x
      simp only [Bool.false_eq_true, if_false, mem_contents_cons, mem_insert, contents_nil,
        Finset.mem_insert, Finset.notMem_empty, or_false]
  | @cons low l u ls hsorted hlowl hupper hle hu hrest ih =>
    rw [BTreeOLC.insertKey, below_of_upper hupper]
    by_cases huk : u < k
    · rw [if_pos (by simpa using huk)]
      obtain ⟨hordered, hcontents⟩ := ih (by simpa using huk)
        fun hmem => hk (mem_contents_cons.mpr (.inr hmem))
      refine ⟨.cons hsorted hlowl hupper hle hu hordered, ?_⟩
      ext x
      rw [mem_contents_cons, hcontents, Finset.mem_insert, Finset.mem_insert, mem_contents_cons]
      exact or_left_comm
    · rw [if_neg (by simpa using huk)]
      have hkl : k ∉ l.keys := fun hmem => hk (mem_contents_cons.mpr (.inl hmem))
      refine ⟨.cons (pairwise_insert hsorted hkl) ?_ hupper ?_ hu hrest, ?_⟩
      · intro x hx a ha
        rcases mem_insert.mp hx with rfl | hx
        · exact hlow a ha
        · exact hlowl x hx a ha
      · intro x hx
        rcases mem_insert.mp hx with rfl | hx
        · exact not_lt.mp huk
        · exact hle x hx
      · ext x
        simp only [mem_contents_cons, mem_insert, Finset.mem_insert]
        exact or_assoc

structure Splits (l left right : BTreeLeaf K) (sep : K) : Prop where
  keys : left.keys ++ right.keys = l.keys
  sep_mem : sep ∈ l.keys
  left_le : ∀ x ∈ left.keys, x ≤ sep
  right_lt : ∀ x ∈ right.keys, sep < x
  left_upper : left.upper = some sep
  right_upper : right.upper = l.upper

theorem splits_of_split {id : Nat} {left right : BTreeLeaf K} (hsorted : l.keys.Pairwise (· < ·))
    (h : l.split id = some (left, right)) : ∃ sep, Splits l left right sep := by
  rw [BTreeLeaf.split, Option.map_eq_some_iff] at h
  obtain ⟨sep, hsep, hpair⟩ := h
  obtain ⟨rfl, rfl⟩ := Prod.mk.inj hpair
  obtain ⟨rest, hrest⟩ := List.getLast?_eq_some_iff.mp hsep
  have hkeys := take_append_drop (l.keys.length / 2) l.keys
  have hmem : sep ∈ l.keys.take (l.keys.length / 2) := by
    rw [hrest]
    exact mem_append_right _ (mem_singleton_self sep)
  have hpairwise := hsorted
  rw [← hkeys] at hpairwise
  obtain ⟨hleft, -, hcross⟩ := pairwise_append.mp hpairwise
  refine ⟨sep, hkeys, mem_of_mem_take hmem, fun x hx => ?_, fun x hx => hcross sep hmem x hx,
    rfl, rfl⟩
  have hx' : x ∈ rest ++ [sep] := hrest ▸ hx
  rcases mem_append.mp hx' with hx' | hx'
  · rw [hrest] at hleft
    exact ((pairwise_append.mp hleft).2.2 x hx' sep (mem_singleton_self sep)).le
  · exact (mem_singleton.mp hx').le

theorem Splits.contents_eq {left right : BTreeLeaf K} {sep : K} (h : Splits l left right sep) :
    contents (left :: right :: ls) = contents (l :: ls) := by
  ext x
  simp only [mem_contents_cons, ← h.keys, mem_append, or_assoc]

theorem Ordered.splitLeaf (h : Ordered low leaves) {id : Nat} {leaves' : List (BTreeLeaf K)}
    (hsplit : splitLeaf id k leaves = some leaves') :
    Ordered low leaves' ∧ contents leaves' = contents leaves := by
  induction h generalizing leaves' with
  | @last low l hsorted hlow hupper =>
    rw [BTreeOLC.splitLeaf, not_below_of_upper hupper] at hsplit
    simp only [Bool.false_eq_true, if_false, Option.map_eq_some_iff] at hsplit
    obtain ⟨⟨left, right⟩, hpair, rfl⟩ := hsplit
    obtain ⟨sep, hs⟩ := splits_of_split hsorted hpair
    obtain ⟨hleft, hright, -⟩ := pairwise_append.mp (hs.keys ▸ hsorted)
    refine ⟨.cons hleft (fun x hx => ?_) hs.left_upper hs.left_le
      (fun a ha => (hlow sep hs.sep_mem a ha).le)
      (.last hright (fun x hx a ha => Option.mem_some.mp ha ▸ hs.right_lt x hx)
        (hs.right_upper.trans hupper)), hs.contents_eq⟩
    exact hlow x (hs.keys ▸ mem_append_left _ hx)
  | @cons low l u ls hsorted hlow hupper hle hu hrest ih =>
    rw [BTreeOLC.splitLeaf, below_of_upper hupper] at hsplit
    by_cases huk : u < k
    · rw [if_pos (by simpa using huk), Option.map_eq_some_iff] at hsplit
      obtain ⟨ls', hls', rfl⟩ := hsplit
      obtain ⟨hordered, hcontents⟩ := ih hls'
      refine ⟨.cons hsorted hlow hupper hle hu hordered, ?_⟩
      ext x
      rw [mem_contents_cons, hcontents, mem_contents_cons]
    · rw [if_neg (by simpa using huk), Option.map_eq_some_iff] at hsplit
      obtain ⟨⟨left, right⟩, hpair, rfl⟩ := hsplit
      obtain ⟨sep, hs⟩ := splits_of_split hsorted hpair
      obtain ⟨hleft, hright, -⟩ := pairwise_append.mp (hs.keys ▸ hsorted)
      have hsub : ∀ x, x ∈ left.keys ∨ x ∈ right.keys → x ∈ l.keys := fun x hx =>
        hs.keys ▸ mem_append.mpr hx
      exact ⟨.cons hleft (fun x hx => hlow x (hsub x (.inl hx))) hs.left_upper hs.left_le
        (fun a ha => (hlow sep hs.sep_mem a ha).le)
        (.cons hright (fun x hx a ha => Option.mem_some.mp ha ▸ hs.right_lt x hx)
          (hs.right_upper.trans hupper) (fun x hx => hle x (hsub x (.inr hx)))
          (fun a ha => Option.mem_some.mp ha ▸ hle sep hs.sep_mem) hrest), hs.contents_eq⟩

end Tigon.BTreeOLC
