import Tigon.BTreeOLC.BPlusTree.Order

namespace Tigon.BTreeOLC.BPlusTree

open Option BTreeLeaf BTreeInner Tigon.Library
open List hiding insert count
open Node

variable {K V : Type} [LinearOrder K]

namespace Grown

variable {h : Nat}

def Fits (p : Params K) (h : Nat) (lo hi : Option K) : Grown K (Node K V h) → Prop
  | .one n => WF p h lo hi n
  | .two l sep r => WF p h lo (some sep) l ∧ Over lo sep ∧ Under hi sep ∧ WF p h (some sep) hi r

def leaves : Grown K (Node K V h) → List (BTreeLeaf K V)
  | .one n => n.leaves h
  | .two l _ r => l.leaves h ++ r.leaves h

def entries (g : Grown K (Node K V h)) : List (K × V) := g.leaves.flatMap BTreeLeaf.entries

omit [LinearOrder K] in
theorem entries_one (l : BTreeLeaf K V) : entries (V := V) (h := 0) (.one l) = l.entries :=
  flatMap_singleton ..

omit [LinearOrder K] in
theorem entries_two (l r : BTreeLeaf K V) (sep : K) :
    entries (V := V) (h := 0) (.two l sep r) = l.entries ++ r.entries := by
  simp [entries, leaves, Node.leaves]

def pick {C : Type} (k : K) : Grown K C → C
  | .one n => n
  | .two l sep r => if sep < k then r else l

end Grown

variable {p : Params K} {lo hi lo' hi' : Option K} {k : K} {v : V} {h : Nat}

section Inner

variable {n : BTreeInner K (Node K V h)} {ks₁ ks₂ : List K} {cs₁ cs₂ : List (Node K V h)}
  {c : Node K V h}

theorem Focus.length_cs₂ (hn : Separated (Loose p h) lo n.keys n.children hi)
    (hf : Focus (Loose p h) lo hi n k ks₁ ks₂ cs₁ c cs₂ lo' hi') : cs₂.length = ks₂.length := by
  have hlength := hn.length_eq
  have hlength₁ := hf.length_eq
  rw [hf.keys_eq, hf.children_eq] at hlength
  simp only [length_append, length_cons] at hlength
  omega

theorem Focus.parted (hn : Separated (Loose p h) lo n.keys n.children hi)
    (hf : Focus (Loose p h) lo hi n k ks₁ ks₂ cs₁ c cs₂ lo' hi') :
    Parted k ((cs₁.flatMap (Node.leaves h)).flatMap entries)
      ((cs₂.flatMap (Node.leaves h)).flatMap entries) := by
  rw [hf.keys_eq, hf.children_eq] at hn
  rw [flatMap_assoc, flatMap_assoc]
  obtain ⟨hbefore, hbehind⟩ := hn.entries_around Prod.fst
    (fun _ _ _ hc => hc.entries_sorted.2) hf.length_eq
  constructor
  · intro e he
    obtain ⟨x, hx, hle⟩ := hbefore e he
    exact lt_of_le_of_lt hle (hf.lt x hx)
  · intro e he
    obtain ⟨x, hx, hlt⟩ := hbehind e he
    exact lt_of_le_of_lt (hf.ge x hx) hlt

theorem Focus.leaves_eq (hf : Focus (Loose p h) lo hi n k ks₁ ks₂ cs₁ c cs₂ lo' hi') :
    Node.leaves (V := V) (h + 1) n
      = cs₁.flatMap (Node.leaves h) ++ (Node.leaves h c ++ cs₂.flatMap (Node.leaves h)) := by
  rw [Node.leaves_succ n, hf.children_eq, flatMap_append, flatMap_cons]

theorem Focus.place_fits (hroomy : p.Roomy) (hn : WF p (h + 1) lo hi n)
    (hfull : n.isFull p = false)
    (hf : Focus (Loose p h) lo hi n k ks₁ ks₂ cs₁ c cs₂ lo' hi') {g : Grown K (Node K V h)}
    (hg : g.Fits p h lo' hi') :
    WF p (h + 1) lo hi (n.place (lowerBound n.keys k) g) ∧
      Node.leaves (V := V) (h + 1) (n.place (lowerBound n.keys k) g)
        = cs₁.flatMap (Node.leaves h) ++ (g.leaves ++ cs₂.flatMap (Node.leaves h)) := by
  obtain ⟨⟨hsep, hcounts, hmax⟩, hcount⟩ := hn
  have hlength₂ := hf.length_cs₂ hsep
  have hroom : n.keys.length + 2 ≤ p.innerMax := by
    simp only [BTreeInner.isFull, decide_eq_false_iff_not] at hfull
    omega
  have hcs₁ : ∀ d ∈ cs₁, 1 ≤ count h d := fun d hd =>
    hcounts d (hf.children_eq ▸ mem_append_left _ hd)
  have hcs₂ : ∀ d ∈ cs₂, 1 ≤ count h d := fun d hd =>
    hcounts d (hf.children_eq ▸ mem_append_right _ (mem_cons_of_mem c hd))
  rw [hf.keys_eq] at hroom
  have hcount' : 1 ≤ (ks₁ ++ ks₂).length := hf.keys_eq ▸ hcount
  cases g with
  | one c' =>
    rw [place, hf.setChild_eq]
    refine ⟨⟨⟨?_, ?_, ?_⟩, hcount'⟩, ?_⟩
    · have hplug := hf.plug [] [c'] hg.1
      simpa using hplug
    · intro d hd
      rcases mem_append.mp hd with hd | hd
      · exact hcs₁ d hd
      · rcases mem_cons.mp hd with rfl | hd
        · exact hg.2
        · exact hcs₂ d hd
    · exact Nat.le_of_succ_le hroom
    · rw [Node.leaves, flatMap_append, flatMap_cons]
      rfl
  | two l sep r =>
    obtain ⟨hl, hover, hunder, hr⟩ := hg
    have hle := hroomy.inner_le
    rw [hf.place_two_eq hover hunder.upTo hlength₂ (by omega)]
    simp only [length_append] at hroom hcount'
    refine ⟨⟨⟨?_, ?_, ?_⟩, ?_⟩, ?_⟩
    · have hplug := hf.plug [sep] [l, r] ⟨hover, hunder, hl.1, hr.1⟩
      simpa using hplug
    · intro d hd
      rcases mem_append.mp hd with hd | hd
      · exact hcs₁ d hd
      · rcases mem_cons.mp hd with rfl | hd
        · exact hl.2
        · rcases mem_cons.mp hd with rfl | hd
          · exact hr.2
          · exact hcs₂ d hd
    · simp only [length_append, length_cons]
      omega
    · simp only [count, length_append, length_cons]
      omega
    · rw [Node.leaves, flatMap_append, flatMap_cons, flatMap_cons, Grown.leaves,
        append_assoc]

theorem childFor_two (cs₁ cs₂ : List (Node K V h)) (l r : Node K V h) {sep : K}
    (hsorted : (ks₁ ++ sep :: ks₂).Pairwise (· < ·)) (hlength : cs₁.length = ks₁.length)
    (hlt : ∀ x ∈ ks₁, x < k) (hge : ∀ x ∈ ks₂, k ≤ x) :
    childFor ⟨ks₁ ++ sep :: ks₂, cs₁ ++ l :: r :: cs₂⟩ k
      = some ((Grown.two l sep r).pick k) := by
  obtain ⟨hsorted₁, hsorted₂, -⟩ := pairwise_append.mp hsorted
  have hl : childFor ⟨ks₁, cs₁ ++ [l]⟩ k = some l := by
    rw [childFor, lowerBound_eq_length hsorted₁ hlt, ← hlength]
    exact List.getElem?_concat_length
  have hr : childFor ⟨ks₂, r :: cs₂⟩ k = some r := by
    rw [childFor, lowerBound_eq_zero (pairwise_cons.mp hsorted₂).2 hge]
    rfl
  have hlength' : (cs₁ ++ [l]).length = ks₁.length + 1 := by
    rw [length_append, hlength]
    rfl
  have happend := childFor_append hsorted hlength' (r :: cs₂) k
  rw [hl, hr, append_assoc] at happend
  rw [Grown.pick, apply_ite some]
  exact happend

theorem place_childFor (hroomy : p.Roomy) (hn : WF p (h + 1) lo hi n) (hfull : n.isFull p = false)
    (hf : Focus (Loose p h) lo hi n k ks₁ ks₂ cs₁ c cs₂ lo' hi') {g : Grown K (Node K V h)}
    (hg : g.Fits p h lo' hi') :
    (n.place (lowerBound n.keys k) g).childFor k = some (g.pick k) := by
  cases g with
  | one c' =>
    rw [place, hf.setChild_eq, childFor,
      lowerBound_append hf.sorted hf.lt hf.ge, ← hf.length_eq,
      List.getElem?_append_right (Nat.le_refl _), Nat.sub_self]
    rfl
  | two l sep r =>
    have hroom : (ks₁ ++ ks₂).length + 1 < 2 ^ 16 := by
      have hle := hroomy.inner_le
      have hmax := hn.1.2.2
      simp only [BTreeInner.isFull, decide_eq_false_iff_not] at hfull
      rw [hf.keys_eq] at hfull hmax
      omega
    have hplace := hf.place_two_eq (l := l) (r := r) hg.2.1 hg.2.2.1.upTo
      (hf.length_cs₂ hn.1.1) hroom
    have hsorted := (hf.place_fits hroomy hn hfull hg).1.1.1.sorted
    rw [hplace] at hsorted ⊢
    exact childFor_two cs₁ cs₂ l r hsorted hf.length_eq hf.lt hf.ge

omit [LinearOrder K] in
theorem split_eq (p : Params K) (hlength : n.children.length = n.keys.length + 1)
    (htwo : 2 ≤ n.keys.length) :
    ∃ ks₁ sep ks₂ cs₁ cs₂, n.keys = ks₁ ++ sep :: ks₂ ∧ n.children = cs₁ ++ cs₂ ∧
      cs₁.length = ks₁.length + 1 ∧ ks₁.length + 1 = n.keys.length / 2 ∧
      n.split p = .two ⟨ks₁, cs₁⟩ sep ⟨ks₂, cs₂⟩ := by
  have hhalf : n.keys.length / 2 - 1 < n.keys.length := by omega
  refine ⟨n.keys.take (n.keys.length / 2 - 1), n.keys[n.keys.length / 2 - 1],
    n.keys.drop (n.keys.length / 2), n.children.take (n.keys.length / 2),
    n.children.drop (n.keys.length / 2), ?_, (take_append_drop ..).symm, ?_, ?_, ?_⟩
  · have hdrop : n.keys.length / 2 = n.keys.length / 2 - 1 + 1 := by omega
    nth_rewrite 3 [hdrop]
    rw [← drop_eq_getElem_cons hhalf, take_append_drop]
  · rw [length_take, length_take]
    omega
  · rw [length_take]
    omega
  · rw [BTreeInner.split, List.getElem?_eq_getElem hhalf, getD_some]

omit [LinearOrder K] in
theorem length_of_isFull (hfull : n.isFull p = true) : n.keys.length = p.innerMax - 1 := by
  simpa only [BTreeInner.isFull, decide_eq_true_eq] using hfull

theorem split_fits (hroomy : p.Roomy) (hn : WF p (h + 1) lo hi n) (hfull : n.isFull p = true) :
    Grown.Fits p (h + 1) lo hi (n.split p) ∧
      Grown.leaves (V := V) (h := h + 1) (n.split p) = Node.leaves (V := V) (h + 1) n := by
  obtain ⟨⟨hsep, hcounts, hmax⟩, hcount⟩ := hn
  have hge := hroomy.inner_ge
  have hkeys := length_of_isFull hfull
  obtain ⟨ks₁, sep, ks₂, cs₁, cs₂, hkeys_eq, hchildren_eq, hlength₁, hhalf, hsplit⟩ :=
    split_eq p hsep.length_eq (by omega)
  have hlength : n.keys.length = ks₁.length + (ks₂.length + 1) := by
    rw [hkeys_eq, length_append, length_cons]
  rw [hkeys_eq, hchildren_eq] at hsep
  obtain ⟨hleft, hover, hunder, hright⟩ := hsep.of_append hlength₁
  rw [hsplit]
  constructor
  · refine ⟨⟨⟨hleft, ?_, ?_⟩, ?_⟩, hover, hunder, ⟨hright, ?_, ?_⟩, ?_⟩
    · exact fun d hd => hcounts d (hchildren_eq ▸ mem_append_left _ hd)
    · dsimp only
      omega
    · dsimp only [count]
      omega
    · exact fun d hd => hcounts d (hchildren_eq ▸ mem_append_right _ hd)
    · dsimp only
      omega
    · dsimp only [count]
      omega
  · change cs₁.flatMap (Node.leaves h) ++ cs₂.flatMap (Node.leaves h) = _
    rw [← flatMap_append, ← hchildren_eq, Node.leaves]

end Inner

theorem splitFull_fits (hroomy : p.Roomy) {n : Node K V h} (hn : WF p h lo hi n)
    (hlo : Over lo k) (hhi : UpTo hi k) {g : Grown K (Node K V h)}
    (hg : splitFull p h n k = some g) : g.Fits p h lo hi ∧ g.leaves = n.leaves h := by
  induction h generalizing lo hi with
  | zero => cases hg
  | succ h ih =>
    rw [splitFull_succ p n k] at hg
    split at hg
    · rename_i hfull
      obtain rfl := some.inj hg
      exact split_fits hroomy hn hfull
    · rename_i hfull
      obtain ⟨ks₁, ks₂, cs₁, c, cs₂, lo', hi', hf⟩ := Focus.exists_focus hn.1.1 hlo hhi
      rw [hf.childFor_eq, bind_some, map_eq_some_iff] at hg
      obtain ⟨g', hg', rfl⟩ := hg
      have hc : 1 ≤ count h c := hn.1.2.1 c (by rw [hf.children_eq]; simp)
      obtain ⟨hfits, hleaves⟩ := ih ⟨hf.child, hc⟩ hf.above hf.upTo hg'
      obtain ⟨hwf, heq⟩ := hf.place_fits hroomy hn (Bool.not_eq_true _ ▸ hfull) hfits
      refine ⟨hwf, ?_⟩
      rw [hf.leaves_eq, ← hleaves]
      exact heq

-- A descent ends at the leaf that has the key if any has. What a step makes of the leaf, it
-- makes of the whole tree.
theorem descend (hroomy : p.Roomy) {n : Node K V h} (hn : Loose p h lo hi n)
    (hcount : h ≠ 0 → 1 ≤ count h n) (hlo : Over lo k) (hhi : UpTo hi k) :
    ∃ (l : BTreeLeaf K V) (lo' hi' : Option K) (ls₁ ls₂ : List (BTreeLeaf K V)),
      leafFor h n k = some l ∧ Loose (V := V) p 0 lo' hi' l ∧ Over lo' k ∧ UpTo hi' k ∧
      Parted k (ls₁.flatMap entries) (ls₂.flatMap entries) ∧
      n.leaves h = ls₁ ++ l :: ls₂ ∧
      (splitFull p h n k = none → ∀ f : BTreeLeaf K V → Grown K (BTreeLeaf K V),
        Grown.Fits (V := V) p 0 lo' hi' (f l) →
        (modifyLeaf f h n k).Fits p h lo hi ∧
        (modifyLeaf f h n k).leaves = ls₁ ++ (Grown.leaves (V := V) (h := 0) (f l) ++ ls₂) ∧
        leafFor h ((modifyLeaf f h n k).pick k) k = some ((f l).pick k)) := by
  induction h generalizing lo hi with
  | zero =>
    refine ⟨n, lo, hi, [], [], rfl, hn, hlo, hhi, ⟨forall_mem_nil _, forall_mem_nil _⟩,
      rfl, fun _ f hf => ⟨hf, (append_nil _).symm, rfl⟩⟩
  | succ h ih =>
    obtain ⟨ks₁, ks₂, cs₁, c, cs₂, lo', hi', hf⟩ := Focus.exists_focus hn.1 hlo hhi
    have hc : 1 ≤ count h c := hn.2.1 c (by rw [hf.children_eq]; simp)
    obtain ⟨l, lo'', hi'', ls₁, ls₂, hleaf, hl, hover, hupTo, hparted, hleaves, hmodify⟩ :=
      ih hf.child (fun _ => hc) hf.above hf.upTo
    refine ⟨l, lo'', hi'', cs₁.flatMap (Node.leaves h) ++ ls₁,
      ls₂ ++ cs₂.flatMap (Node.leaves h), ?_, hl, hover, hupTo, ?_, ?_, ?_⟩
    · rw [leafFor_succ n k, hf.childFor_eq]
      exact hleaf
    · rw [flatMap_append, flatMap_append]
      exact hparted.append (hf.parted hn.1)
    · rw [hf.leaves_eq, hleaves]
      simp only [append_assoc, cons_append]
    · intro hnone f hfits
      rw [splitFull_succ p n k] at hnone
      split at hnone
      · cases hnone
      · rename_i hfull
        rw [hf.childFor_eq, bind_some, map_eq_none_iff] at hnone
        rw [Bool.not_eq_true] at hfull
        obtain ⟨hfits', hleaves', hpick⟩ := hmodify hnone f hfits
        have hn' : WF p (h + 1) lo hi n := ⟨hn, hcount (Nat.succ_ne_zero h)⟩
        obtain ⟨hwf, heq⟩ := hf.place_fits hroomy hn' hfull hfits'
        rw [modifyLeaf_succ n k f, hf.childFor_eq]
        refine ⟨hwf, heq.trans ?_, ?_⟩
        · rw [hleaves']
          simp only [append_assoc]
        · rw [Grown.pick, leafFor_succ, place_childFor hroomy hn' hfull hf hfits']
          exact hpick

def InsertSpec (k : K) (v : V) (es es' : List (K × V)) : Bool → Prop
  | true => ∃ es₁ es₂, Parted k es₁ es₂ ∧ es = es₁ ++ es₂ ∧ es' = es₁ ++ (k, v) :: es₂
  | false => es' = es ∧ ∃ w es₁ es₂, Parted k es₁ es₂ ∧ es = es₁ ++ (k, w) :: es₂

theorem InsertSpec.append {es es' fs₁ fs₂ : List (K × V)} {b : Bool}
    (hspec : InsertSpec k v es es' b) (hparted : Parted k fs₁ fs₂) :
    InsertSpec k v (fs₁ ++ (es ++ fs₂)) (fs₁ ++ (es' ++ fs₂)) b := by
  cases b with
  | true =>
    obtain ⟨es₁, es₂, hparted', rfl, rfl⟩ := hspec
    exact ⟨fs₁ ++ es₁, es₂ ++ fs₂, hparted'.append hparted, by simp, by simp⟩
  | false =>
    obtain ⟨rfl, w, es₁, es₂, hparted', rfl⟩ := hspec
    exact ⟨rfl, w, fs₁ ++ es₁, es₂ ++ fs₂, hparted'.append hparted, by simp⟩

namespace BTreeLeaf

variable {l : BTreeLeaf K V}

theorem insert_spec (hroomy : p.Roomy) (hl : Loose (V := V) p 0 lo hi l) (hlo : Over lo k)
    (hhi : UpTo hi k) (hroom : l.entries.length < p.leafMax) :
    WF (V := V) p 0 lo hi (l.insert k v) ∧
      InsertSpec k v l.entries (l.insert k v).entries (!l.contains k) := by
  obtain ⟨hsorted, hbounds, hmax⟩ := hl
  obtain ⟨es₁, es₂, hparted, hbound, ⟨hc, w, heq⟩ | ⟨hc, heq⟩⟩ := l.parts hsorted k
  · have hinsert : l.insert k v = l := if_pos hc
    rw [hinsert, hc]
    refine ⟨⟨⟨hsorted, hbounds, hmax⟩, ?_⟩, rfl, w, es₁, es₂, hparted, heq⟩
    simp only [count, heq, length_append, length_cons]
    omega
  · have hlt := hroomy.leaf_lt
    have hentries : (l.insert k v).entries = es₁ ++ (k, v) :: es₂ := by
      rw [insert, if_neg (by simp [hc]), hbound, heq, insertIdx_append_length, setCount_of_lt]
      rw [heq, length_append] at hroom
      simp only [length_append, length_cons]
      omega
    rw [heq] at hsorted hbounds hroom
    obtain ⟨hsorted₁, hsorted₂, hcross⟩ := pairwise_append.mp hsorted
    rw [hc]
    refine ⟨⟨⟨?_, ?_, ?_⟩, ?_⟩, es₁, es₂, hparted, heq, hentries⟩
    · rw [hentries]
      refine pairwise_append.mpr ⟨hsorted₁, .cons hparted.gt hsorted₂, fun a ha b hb => ?_⟩
      rcases mem_cons.mp hb with rfl | hb
      · exact hparted.lt a ha
      · exact hcross a ha b hb
    · rw [hentries]
      intro e he
      rcases mem_append.mp he with he | he
      · exact hbounds e (mem_append_left _ he)
      · rcases mem_cons.mp he with rfl | he
        · exact ⟨hlo, hhi⟩
        · exact hbounds e (mem_append_right _ he)
    · rw [length_append] at hroom
      rw [hentries, length_append, length_cons]
      omega
    · simp only [count, hentries, length_append, length_cons]
      omega

theorem max_key_spec (p : Params K) (hsorted : l.entries.Pairwise (fun a b => a.1 < b.1))
    (hcount : 1 ≤ l.entries.length) :
    ∃ e ∈ l.entries, l.max_key p = e.1 ∧ ∀ e' ∈ l.entries, e'.1 ≤ e.1 := by
  have hne : l.entries ≠ [] := ne_nil_of_length_pos hcount
  refine ⟨l.entries.getLast hne, getLast_mem hne, ?_, fun e' he' => ?_⟩
  · rw [max_key, keys, List.getLast?_map, List.getLast?_eq_some_getLast hne]
    rfl
  · rw [← dropLast_append_getLast hne] at he' hsorted
    rcases mem_append.mp he' with he' | he'
    · exact le_of_lt ((pairwise_append.mp hsorted).2.2 e' he' _ mem_cons_self)
    · rw [mem_singleton.mp he']

theorem halves_fit {es₁ es₂ : List (K × V)} (id₁ id₂ : Nat)
    (hsorted : (es₁ ++ es₂).Pairwise (fun a b => a.1 < b.1))
    (hbounds : ∀ e ∈ es₁ ++ es₂, Over lo e.1 ∧ UpTo hi e.1) (h₁ : 1 ≤ es₁.length)
    (h₂ : 1 ≤ es₂.length) (hmax₁ : es₁.length ≤ p.leafMax) (hmax₂ : es₂.length ≤ p.leafMax) :
    Grown.Fits (V := V) p 0 lo hi
      (.two (⟨id₁, es₁⟩ : BTreeLeaf K V) (max_key p ⟨id₁, es₁⟩) (⟨id₂, es₂⟩ : BTreeLeaf K V)) := by
  obtain ⟨hsorted₁, hsorted₂, hcross⟩ := pairwise_append.mp hsorted
  obtain ⟨m, hm, hkey, hle⟩ := max_key_spec (l := ⟨id₁, es₁⟩) p hsorted₁ h₁
  rw [hkey]
  refine ⟨⟨⟨hsorted₁, fun e he => ⟨?_, ?_⟩, hmax₁⟩, h₁⟩, ?_, ?_,
    ⟨hsorted₂, fun e he => ⟨?_, ?_⟩, hmax₂⟩, h₂⟩
  · exact (hbounds e (mem_append_left _ he)).1
  · exact upTo_some.mpr (hle e he)
  · exact (hbounds m (mem_append_left _ hm)).1
  · obtain ⟨e, he⟩ := exists_mem_of_length_pos h₂
    exact (hbounds e (mem_append_right _ he)).2.under (hcross m hm e he)
  · exact over_some.mpr (hcross m hm e he)
  · exact (hbounds e (mem_append_right _ he)).2

theorem split_fits (hroomy : p.Roomy) (hl : Loose (V := V) p 0 lo hi l) (hfull : l.isFull p = true)
    (newId : Nat) : Grown.Fits (V := V) p 0 lo hi (l.split p newId) := by
  have hge := hroomy.leaf_ge
  have hlength : l.entries.length = p.leafMax := by
    simpa only [isFull, decide_eq_true_eq] using hfull
  refine halves_fit l.id newId ?_ ?_ ?_ ?_ ?_ ?_
  · rw [take_append_drop]
    exact hl.1
  · rw [take_append_drop]
    exact hl.2.1
  · rw [length_take]
    omega
  · rw [length_drop]
    omega
  · rw [length_take]
    omega
  · rw [length_drop]
    omega

theorem insertAt_spec (hroomy : p.Roomy) (hl : Loose (V := V) p 0 lo hi l) (hlo : Over lo k)
    (hhi : UpTo hi k) (newId : Nat) :
    Grown.Fits (V := V) p 0 lo hi (Tree.insertAt p newId k v l) ∧
      InsertSpec k v l.entries (Grown.entries (V := V) (h := 0) (Tree.insertAt p newId k v l))
        (!(Tree.insertTarget p newId k l).contains k) := by
  have hge := hroomy.leaf_ge
  rw [Tree.insertAt, Tree.insertTarget]
  by_cases hfull : l.isFull p = true
  · have hlength : l.entries.length = p.leafMax := by
      simpa only [isFull, decide_eq_true_eq] using hfull
    have hhalves : l.entries = l.left.entries ++ (l.right newId).entries :=
      (take_append_drop ..).symm
    obtain ⟨hleft, hover, hunder, hright⟩ := split_fits hroomy hl hfull newId
    rw [if_pos hfull, if_pos hfull]
    by_cases hk : l.left.max_key p < k
    · rw [if_pos hk, if_pos hk, Grown.entries_two]
      obtain ⟨hwf, hspec⟩ := insert_spec (v := v) hroomy hright.1 (over_some.mpr hk) hhi
        (by simp only [right, length_drop]; omega)
      refine ⟨⟨hleft, hover, hunder, hwf⟩, ?_⟩
      have hparted : Parted k l.left.entries ([] : List (K × V)) := by
        refine ⟨fun e he => ?_, forall_mem_nil _⟩
        exact lt_of_le_of_lt (upTo_some.mp (hleft.1.2.1 e he).2) hk
      have happend := hspec.append hparted
      rw [append_nil, append_nil, ← hhalves] at happend
      exact happend
    · rw [if_neg hk, if_neg hk, Grown.entries_two]
      obtain ⟨hwf, hspec⟩ := insert_spec (v := v) hroomy hleft.1 hlo
        (upTo_some.mpr (not_lt.mp hk)) (by simp only [left, length_take]; omega)
      refine ⟨⟨hwf, hover, hunder, hright⟩, ?_⟩
      have hparted : Parted k ([] : List (K × V)) (l.right newId).entries := by
        refine ⟨forall_mem_nil _, fun e he => ?_⟩
        exact lt_of_le_of_lt (not_lt.mp hk) (over_some.mp (hright.1.2.1 e he).1)
      have happend := hspec.append hparted
      rw [nil_append, nil_append, ← hhalves] at happend
      exact happend
  · rw [if_neg hfull, if_neg hfull, Grown.entries_one]
    have hroom : l.entries.length < p.leafMax := by
      have hmax := hl.2.2
      simp only [isFull, decide_eq_true_eq] at hfull
      omega
    exact insert_spec hroomy hl hlo hhi hroom

end BTreeLeaf

end Tigon.BTreeOLC.BPlusTree
