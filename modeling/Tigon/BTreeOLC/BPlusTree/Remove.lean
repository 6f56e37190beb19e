import Tigon.BTreeOLC.BPlusTree.Restarts

namespace Tigon.BTreeOLC.BPlusTree

open BTreeInner Grown Tigon.Library
open List hiding merge insert count
open Node

variable {K V : Type} [LinearOrder K] {p : Params K} {lo hi lo' hi' : Option K} {k : K} {h : Nat}

theorem Node.Loose.mono_left {n : Node K V h} (hn : Loose p h lo hi n)
    (hlo : ∀ x, Over lo x → Over lo' x) : Loose p h lo' hi n := by
  induction h generalizing hi with
  | zero => exact ⟨hn.1, fun e he => ⟨hlo _ (hn.2.1 e he).1, (hn.2.1 e he).2⟩, hn.2.2⟩
  | succ h ih => exact ⟨hn.1.mono_left hlo fun _ _ hc => ih hc, hn.2⟩

section MaxKey

omit [LinearOrder K] in
theorem getSubTreeMaxKey_succ (p : Params K) (n : BTreeInner K (Node K V h)) :
    getSubTreeMaxKey (V := V) p (h + 1) n = lastChildMaxKey p h n := by
  rw [getSubTreeMaxKey, lastChildMaxKey]
  cases n.children[n.keys.length]? <;> rfl

theorem lastChildMaxKey_spec {n : BTreeInner K (Node K V h)}
    (hsep : Separated (Loose p h) lo n.keys n.children hi)
    (hcounts : ∀ c ∈ n.children, 1 ≤ count h c)
    (hmax : ∀ lo hi (c : Node K V h), WF p h lo hi c →
      Loose p h lo (some (getSubTreeMaxKey p h c)) c ∧
      Over lo (getSubTreeMaxKey p h c) ∧ UpTo hi (getSubTreeMaxKey p h c)) :
    Separated (Loose p h) lo n.keys n.children (some (lastChildMaxKey p h n)) ∧
      Over lo (lastChildMaxKey p h n) ∧ UpTo hi (lastChildMaxKey p h n) := by
  have hlength := hsep.length_eq
  have hne : n.children ≠ [] := ne_nil_of_length_pos (by omega)
  have hlast : lastChildMaxKey p h n = getSubTreeMaxKey p h (n.children.getLast hne) := by
    rw [lastChildMaxKey, getLast_eq_getElem,
      List.getElem?_eq_getElem (by omega : n.keys.length < n.children.length)]
    simp only [hlength, Nat.add_sub_cancel, Option.map_some, Option.getD_some]
  rw [← dropLast_append_getLast hne] at hsep ⊢
  obtain ⟨lo', hc, hover, hplug⟩ := hsep.of_concat
  obtain ⟨hloose, hlo, hhi⟩ := hmax lo' hi _ ⟨hc, hcounts _ (getLast_mem hne)⟩
  obtain ⟨hlo', hkeys⟩ := hover _ hlo
  rw [hlast]
  exact ⟨hplug _ hloose fun x hx => under_some.mpr (hkeys x hx), hlo', hhi⟩

theorem getSubTreeMaxKey_spec {n : Node K V h} (hn : WF p h lo hi n) :
    Loose p h lo (some (getSubTreeMaxKey p h n)) n ∧ Over lo (getSubTreeMaxKey p h n) ∧
      UpTo hi (getSubTreeMaxKey p h n) := by
  induction h generalizing lo hi with
  | zero =>
    obtain ⟨⟨hsorted, hbounds, hmax⟩, hcount⟩ := hn
    obtain ⟨m, hm, hkey, hle⟩ := BTreeLeaf.max_key_spec p hsorted hcount
    rw [getSubTreeMaxKey, hkey]
    refine ⟨⟨hsorted, fun e he => ⟨(hbounds e he).1, upTo_some.mpr (hle e he)⟩, hmax⟩, ?_⟩
    exact hbounds m hm
  | succ h ih =>
    rw [getSubTreeMaxKey_succ]
    obtain ⟨hsep, hmax⟩ := lastChildMaxKey_spec hn.1.1 hn.1.2.1 fun _ _ _ hc => ih hc
    exact ⟨⟨hsep, hn.1.2⟩, hmax⟩

end MaxKey

section Leaves

variable {a b : BTreeLeaf K V} {sep : K}

theorem append_leaf (ha : Loose (V := V) p 0 lo (some sep) a) (hover : Over lo sep)
    (hunder : Under hi sep) (hb : Loose (V := V) p 0 (some sep) hi b) :
    (a.entries ++ b.entries).Pairwise (fun x y => x.1 < y.1) ∧
      ∀ e ∈ a.entries ++ b.entries, Over lo e.1 ∧ UpTo hi e.1 := by
  constructor
  · refine pairwise_append.mpr ⟨ha.1, hb.1, fun x hx y hy => ?_⟩
    exact lt_of_le_of_lt (upTo_some.mp (ha.2.1 x hx).2) (over_some.mp (hb.2.1 y hy).1)
  · intro e he
    rcases mem_append.mp he with he | he
    · exact ⟨(ha.2.1 e he).1, (hunder.trans (upTo_some.mp (ha.2.1 e he).2)).upTo⟩
    · exact ⟨hover.trans (le_of_lt (over_some.mp (hb.2.1 e he).1)), (hb.2.1 e he).2⟩

section

variable (hroomy : p.Roomy) (ha : Loose (V := V) p 0 lo (some sep) a) (hover : Over lo sep)
  (hunder : Under hi sep) (hb : Loose (V := V) p 0 (some sep) hi b)

include hroomy ha hover hunder hb

theorem merge_leaf_fits (hspace : a.entries.length + b.entries.length ≤ p.leafMax)
    (hcount : 1 ≤ a.entries.length + b.entries.length) :
    WF (V := V) p 0 lo hi (a.merge b) ∧ (a.merge b).entries = a.entries ++ b.entries := by
  have hlt := hroomy.leaf_lt
  obtain ⟨hsorted, hbounds⟩ := append_leaf ha hover hunder hb
  rw [← length_append] at hspace hcount
  rw [BTreeLeaf.merge, setCount_of_lt (by omega)]
  exact ⟨⟨⟨hsorted, hbounds, hspace⟩, hcount⟩, rfl⟩

theorem borrow_right_leaf (hroom : a.entries.length < p.leafMax) (hsurplus : 2 ≤ b.entries.length) :
    ∃ es₁ es₂ : List (K × V), borrowFromRight (V := V) p 0 a sep b
        = ((⟨a.id, es₁⟩ : BTreeLeaf K V), BTreeLeaf.max_key p (⟨a.id, es₁⟩ : BTreeLeaf K V),
          (⟨b.id, es₂⟩ : BTreeLeaf K V)) ∧
      Fits (V := V) p 0 lo hi (.two (⟨a.id, es₁⟩ : BTreeLeaf K V)
        (BTreeLeaf.max_key p (⟨a.id, es₁⟩ : BTreeLeaf K V)) (⟨b.id, es₂⟩ : BTreeLeaf K V)) ∧
      es₁ ++ es₂ = a.entries ++ b.entries := by
  have hlt := hroomy.leaf_lt
  obtain ⟨hsorted, hbounds⟩ := append_leaf ha hover hunder hb
  obtain ⟨id', es⟩ := b
  match es, hsurplus with
  | e :: es, hsurplus =>
    have hmax := hb.2.2
    have hassoc : a.entries ++ e :: es = a.entries ++ [e] ++ es := by simp
    have hlength : (a.entries ++ [e]).length = a.entries.length + 1 := by simp
    rw [length_cons] at hsurplus hmax
    refine ⟨a.entries ++ [e], es, ?_, ?_, hassoc.symm⟩
    · rw [borrowFromRight]
      dsimp only
      rw [setCount_of_lt (by omega)]
    · dsimp only at hsorted hbounds
      rw [hassoc] at hsorted hbounds
      exact BTreeLeaf.halves_fit _ _ hsorted hbounds (by omega) (by omega) (by omega) (by omega)

theorem borrow_left_leaf (hroom : b.entries.length < p.leafMax) (hsurplus : 2 ≤ a.entries.length) :
    ∃ es₁ es₂ : List (K × V), borrowFromLeft (V := V) p 0 a sep b
        = ((⟨a.id, es₁⟩ : BTreeLeaf K V), BTreeLeaf.max_key p (⟨a.id, es₁⟩ : BTreeLeaf K V),
          (⟨b.id, es₂⟩ : BTreeLeaf K V)) ∧
      Fits (V := V) p 0 lo hi (.two (⟨a.id, es₁⟩ : BTreeLeaf K V)
        (BTreeLeaf.max_key p (⟨a.id, es₁⟩ : BTreeLeaf K V)) (⟨b.id, es₂⟩ : BTreeLeaf K V)) ∧
      es₁ ++ es₂ = a.entries ++ b.entries := by
  have hlt := hroomy.leaf_lt
  obtain ⟨hsorted, hbounds⟩ := append_leaf ha hover hunder hb
  have hne : a.entries ≠ [] := ne_nil_of_length_pos (by omega)
  have hmax := ha.2.2
  have hassoc :
      a.entries ++ b.entries = a.entries.dropLast ++ a.entries.getLast hne :: b.entries := by
    rw [← concat_append, concat_eq_append, dropLast_append_getLast hne]
  have hlength : a.entries.dropLast.length = a.entries.length - 1 := length_dropLast
  refine ⟨a.entries.dropLast, a.entries.getLast hne :: b.entries, ?_, ?_, hassoc.symm⟩
  · rw [borrowFromLeft, List.getLast?_eq_some_getLast hne]
    dsimp only
    rw [setCount_of_lt (by rw [length_cons]; omega)]
  · rw [hassoc] at hsorted hbounds
    exact BTreeLeaf.halves_fit _ _ hsorted hbounds (by omega) (by rw [length_cons]; omega)
      (by omega) (by rw [length_cons]; omega)

end

end Leaves

section Inner

variable {a b : BTreeInner K (Node K V h)} {sep : K}

theorem merge_inner_fits (hroomy : p.Roomy) (ha : Loose (V := V) p (h + 1) lo (some sep) a)
    (hunder : Under hi sep) (hb : Loose (V := V) p (h + 1) (some sep) hi b)
    (hspace : a.keys.length + b.keys.length + 1 < p.innerMax) :
    WF p (h + 1) lo hi (Node.merge (V := V) p (h + 1) a b) ∧
      Node.leaves (h + 1) (Node.merge (V := V) p (h + 1) a b)
        = Node.leaves (V := V) (h + 1) a ++ Node.leaves (V := V) (h + 1) b := by
  have hle := hroomy.inner_le
  obtain ⟨hleft, hlo, hhi⟩ :=
    lastChildMaxKey_spec ha.1 ha.2.1 fun _ _ _ hc => getSubTreeMaxKey_spec hc
  have hover : ∀ x, Over (some sep) x → Over (some (lastChildMaxKey p h a)) x := fun x hx =>
    over_some.mpr (lt_of_le_of_lt (upTo_some.mp hhi) (over_some.mp hx))
  have hright := hb.1.mono_left hover fun _ _ hc => hc.mono_left hover
  have hlength := ha.1.length_eq
  have hlength' := hb.1.length_eq
  rw [merge, ofLists_of_lt]
  · refine ⟨⟨⟨hleft.append hlo (hunder.trans (upTo_some.mp hhi)) hright, ?_, ?_⟩, ?_⟩, ?_⟩
    · exact fun c hc => (mem_append.mp hc).elim (ha.2.1 c) (hb.2.1 c)
    · simp only [length_append, length_cons]
      omega
    · simp only [count, length_append, length_cons]
      omega
    · rw [Node.leaves, flatMap_append]
      rfl
  · simp only [length_append, length_cons]
    omega
  · simp only [length_append, length_cons]
    omega

theorem borrow_right_inner (hroomy : p.Roomy) (ha : Loose (V := V) p (h + 1) lo (some sep) a)
    (hover : Over lo sep) (hb : Loose (V := V) p (h + 1) (some sep) hi b)
    (hroom : a.keys.length + 2 ≤ p.innerMax) (hsurplus : 2 ≤ b.keys.length) :
    ∃ n₁ m n₂, borrowFromRight (V := V) p (h + 1) a sep b = (n₁, m, n₂) ∧
      Fits (V := V) p (h + 1) lo hi (.two n₁ m n₂) ∧
      Node.leaves (h + 1) n₁ ++ Node.leaves (h + 1) n₂
        = Node.leaves (V := V) (h + 1) a ++ Node.leaves (V := V) (h + 1) b := by
  have hle := hroomy.inner_le
  obtain ⟨ks, cs⟩ := b
  have hlength := ha.1.length_eq
  have hlength' := hb.1.length_eq
  match ks, cs, hlength', hsurplus with
  | m :: ks, c :: cs, hlength', hsurplus =>
    obtain ⟨⟨hm, hunder, hc, hrest⟩, hcounts, hmax⟩ := hb
    have hrow : Separated (Loose p h) lo (a.keys ++ [sep]) (a.children ++ [c]) (some m) :=
      ha.1.append hover (under_some.mpr (over_some.mp hm)) hc
    obtain ⟨hc', hcs⟩ := forall_mem_cons.mp hcounts
    rw [length_cons] at hsurplus hmax
    refine ⟨⟨a.keys ++ [sep], a.children ++ [c]⟩, m, ⟨ks, cs⟩, ?_,
      ⟨⟨⟨hrow, ?_, ?_⟩, ?_⟩, ?_, hunder,
      ⟨hrest, hcs, ?_⟩, ?_⟩, ?_⟩
    · rw [borrowFromRight]
      dsimp only
      rw [ofLists_of_lt]
      · rw [length_append, length_singleton]
        omega
      · rw [length_append, length_append, hlength]
        rfl
    · intro d hd
      rcases mem_append.mp hd with hd | hd
      · exact ha.2.1 d hd
      · rw [mem_singleton.mp hd]
        exact hc'
    · rw [length_append, length_singleton]
      omega
    · simp only [count, length_append, length_singleton]
      omega
    · exact hover.trans (le_of_lt (over_some.mp hm))
    · dsimp only
      omega
    · simp only [count]
      omega
    · simp only [Node.leaves, flatMap_append, flatMap_cons, flatMap_nil,
        append_nil, append_assoc]

theorem borrow_left_inner (hroomy : p.Roomy) (ha : Loose (V := V) p (h + 1) lo (some sep) a)
    (hunder : Under hi sep) (hb : Loose (V := V) p (h + 1) (some sep) hi b)
    (hroom : b.keys.length + 2 ≤ p.innerMax) (hsurplus : 2 ≤ a.keys.length) :
    ∃ n₁ m n₂, borrowFromLeft (V := V) p (h + 1) a sep b = (n₁, m, n₂) ∧
      Fits (V := V) p (h + 1) lo hi (.two n₁ m n₂) ∧
      Node.leaves (h + 1) n₁ ++ Node.leaves (h + 1) n₂
        = Node.leaves (V := V) (h + 1) a ++ Node.leaves (V := V) (h + 1) b := by
  have hle := hroomy.inner_le
  obtain ⟨ks, cs⟩ := a
  have hlength := ha.1.length_eq
  have hlength' := hb.1.length_eq
  obtain ⟨ks, m, rfl⟩ : ∃ ks' m, ks = ks' ++ [m] :=
    eq_nil_or_concat' ks |>.resolve_left (ne_nil_of_length_pos (by dsimp only at hsurplus; omega))
  obtain ⟨cs, c, rfl⟩ : ∃ cs' c, cs = cs' ++ [c] :=
    eq_nil_or_concat' cs |>.resolve_left (ne_nil_of_length_pos (by dsimp only at hlength; omega))
  obtain ⟨hsep, hcounts, hmax⟩ := ha
  simp only [length_append, length_singleton] at hlength hsurplus hmax
  obtain ⟨hleft, hm, hm', hc⟩ := hsep.of_append (by omega)
  have hlt : m < sep := under_some.mp hm'
  refine ⟨⟨ks, cs⟩, m, ⟨sep :: b.keys, c :: b.children⟩, ?_, ⟨⟨⟨hleft, ?_, ?_⟩, ?_⟩, hm,
    hunder.trans (le_of_lt hlt), ⟨⟨over_some.mpr hlt, hunder, hc, hb.1⟩, ?_, ?_⟩, ?_⟩, ?_⟩
  · rw [borrowFromLeft, List.getLast?_concat, List.getLast?_concat]
    dsimp only
    rw [dropLast_concat, dropLast_concat, ofLists_of_lt]
    · rw [length_cons]
      omega
    · rw [length_cons, length_cons, hlength']
  · exact fun d hd => hcounts d (mem_append_left _ hd)
  · dsimp only
    omega
  · simp only [count]
    omega
  · exact forall_mem_cons.mpr ⟨hcounts c (by simp), hb.2.1⟩
  · rw [length_cons]
    omega
  · simp only [count, length_cons]
    omega
  · simp only [Node.leaves, flatMap_append, flatMap_cons, flatMap_nil,
      append_nil, append_assoc]

end Inner

namespace Node

def ids (h : Nat) (n : Node K V h) : List Nat := (leaves h n).map BTreeLeaf.id

end Node

omit [LinearOrder K] in
theorem Node.ids_succ (n : BTreeInner K (Node K V h)) :
    Node.ids (V := V) (h + 1) n = n.children.flatMap (ids h) := by
  rw [ids, leaves_succ, map_flatMap]
  rfl

def SamePair (h : Nat) (l r a b : Node K V h) : Prop :=
  l.entries h ++ r.entries h = a.entries h ++ b.entries h ∧ l.ids h ++ r.ids h = a.ids h ++ b.ids h

def LinkSpec (ids ids' : List Nat) : Option (BTreeLeaf K V × BTreeLeaf K V) → Prop
  | none => ids' = ids
  | some (l, sibling) => ∃ xs ys, ids = xs ++ l.id :: sibling.id :: ys ∧ ids' = xs ++ l.id :: ys

omit [LinearOrder K] in
theorem LinkSpec.append {ids ids' : List Nat} {pair : Option (BTreeLeaf K V × BTreeLeaf K V)}
    (hspec : LinkSpec ids ids' pair) (xs ys : List Nat) :
    LinkSpec (xs ++ (ids ++ ys)) (xs ++ (ids' ++ ys)) pair := by
  cases pair with
  | none => rw [LinkSpec, hspec]
  | some pair =>
    obtain ⟨xs', ys', rfl, rfl⟩ := hspec
    exact ⟨xs ++ xs', ys' ++ ys, by simp, by simp⟩

omit [LinearOrder K] in
theorem LinkSpec.trans {ids ids' ids'' : List Nat}
    {pair pair' : Option (BTreeLeaf K V × BTreeLeaf K V)} (hspec : LinkSpec ids ids' pair)
    (hspec' : LinkSpec ids' ids'' pair') (hone : pair = none ∨ pair' = none) :
    LinkSpec ids ids'' (pair' <|> pair) := by
  rcases hone with rfl | rfl
  · obtain rfl := hspec
    rw [Option.orElse_eq_orElse, Option.orElse_eq_or, Option.or_none]
    exact hspec'
  · obtain rfl := hspec'
    exact hspec

section Neighbours

variable {a b : Node K V h} {sep : K}

section

omit [LinearOrder K]

theorem SamePair.of_leaves {l r : Node K V h}
    (heq : l.leaves h ++ r.leaves h = a.leaves h ++ b.leaves h) : SamePair h l r a b := by
  have hentries := congrArg (List.flatMap BTreeLeaf.entries) heq
  have hids := congrArg (List.map BTreeLeaf.id) heq
  rw [flatMap_append, flatMap_append] at hentries
  rw [map_append, map_append] at hids
  exact ⟨hentries, hids⟩

theorem lt_of_needMerge (hneed : needMerge p h a = true) :
    a.count h * 33554432 < 13421773 * maxEntries p h := by
  have hlt := of_decide_eq_true hneed
  omega

theorem lt_of_hasSurplus (hsurplus : hasSurplus p h a = true) :
    (2 * maxEntries p h + 4) / 5 < a.count h := by
  simpa only [hasSurplus, decide_eq_true_eq] using hsurplus

theorem hasEnoughSpace_comm :
    hasEnoughSpace p h a (b.count h) = hasEnoughSpace p h b (a.count h) := by
  cases h with
  | zero => simp only [hasEnoughSpace, Nat.add_comm (count 0 a)]
  | succ h => simp only [hasEnoughSpace, Nat.add_comm (count (h + 1) a)]

theorem count_pos_of_no_space (hroomy : p.Roomy) (hsurplus : hasSurplus p h a = false)
    (hspace : hasEnoughSpace p h a (b.count h) = false) : 1 ≤ b.count h := by
  have hle := hroomy.leaf_ge
  have hle' := hroomy.inner_ge
  rw [hasSurplus, decide_eq_false_iff_not] at hsurplus
  cases h with
  | zero | succ h =>
    simp only [hasEnoughSpace, decide_eq_false_iff_not] at hspace
    dsimp only [maxEntries] at hsurplus
    omega

end

variable (hroomy : p.Roomy) (ha : Loose p h lo (some sep) a) (hover : Over lo sep)
  (hunder : Under hi sep) (hb : Loose p h (some sep) hi b)

include hroomy ha hover hunder hb

theorem merge_fits (hspace : hasEnoughSpace p h a (b.count h) = true)
    (hcount : 1 ≤ a.count h + b.count h) :
    WF p h lo hi (a.merge p h b) ∧ (a.merge p h b).entries h = a.entries h ++ b.entries h ∧
      LinkSpec (a.ids h ++ b.ids h) ((a.merge p h b).ids h) (mergedLeaves h a b) := by
  cases h with
  | zero =>
    simp only [hasEnoughSpace, decide_eq_true_eq] at hspace
    obtain ⟨hwf, hentries⟩ := merge_leaf_fits hroomy ha hover hunder hb hspace hcount
    refine ⟨hwf, ?_, [], [], rfl, rfl⟩
    rw [entries_zero a, entries_zero b, ← hentries]
    exact entries_zero _
  | succ h =>
    simp only [hasEnoughSpace, decide_eq_true_eq] at hspace
    obtain ⟨hwf, hleaves⟩ := merge_inner_fits hroomy ha hunder hb hspace
    refine ⟨hwf, ?_, ?_⟩
    · rw [Node.entries, hleaves, flatMap_append]
      rfl
    · rw [mergedLeaves, LinkSpec, Node.ids, hleaves, map_append]
      rfl

theorem borrowFromRight_fits (hneed : needMerge p h a = true) (hsurplus : hasSurplus p h b = true) :
    ∃ l m r, borrowFromRight p h a sep b = (l, m, r) ∧ Fits p h lo hi (.two l m r) ∧
      SamePair h l r a b := by
  have hlt := lt_of_needMerge hneed
  have hgt := lt_of_hasSurplus hsurplus
  have hle := hroomy.leaf_ge
  have hle' := hroomy.inner_ge
  cases h with
  | zero =>
    dsimp only [count, maxEntries] at hlt hgt
    obtain ⟨es₁, es₂, heq, hfits, hentries⟩ := borrow_right_leaf hroomy ha hover hunder hb
      (by omega) (by omega)
    exact ⟨_, _, _, heq, hfits, by simpa [Node.entries, Node.leaves] using hentries, rfl⟩
  | succ h =>
    dsimp only [count, maxEntries] at hlt hgt
    obtain ⟨l, m, r, heq, hfits, hleaves⟩ :=
      borrow_right_inner hroomy ha hover hb (by omega) (by omega)
    exact ⟨l, m, r, heq, hfits, .of_leaves hleaves⟩

theorem borrowFromLeft_fits (hneed : needMerge p h b = true) (hsurplus : hasSurplus p h a = true) :
    ∃ l m r, borrowFromLeft p h a sep b = (l, m, r) ∧ Fits p h lo hi (.two l m r) ∧
      SamePair h l r a b := by
  have hlt := lt_of_needMerge hneed
  have hgt := lt_of_hasSurplus hsurplus
  have hle := hroomy.leaf_ge
  have hle' := hroomy.inner_ge
  cases h with
  | zero =>
    dsimp only [count, maxEntries] at hlt hgt
    obtain ⟨es₁, es₂, heq, hfits, hentries⟩ := borrow_left_leaf hroomy ha hover hunder hb
      (by omega) (by omega)
    exact ⟨_, _, _, heq, hfits, by simpa [Node.entries, Node.leaves] using hentries, rfl⟩
  | succ h =>
    dsimp only [count, maxEntries] at hlt hgt
    obtain ⟨l, m, r, heq, hfits, hleaves⟩ :=
      borrow_left_inner hroomy ha hunder hb (by omega) (by omega)
    exact ⟨l, m, r, heq, hfits, .of_leaves hleaves⟩

end Neighbours

section EraseMerge

variable {ks₁ ks₂ : List K} {cs₁ cs₂ : List (Node K V h)} {c l r : Node K V h} {sep : K}

inductive EraseStep (p : Params K) (h : Nat) (c : Node K V h) (ks₁ ks₂ : List K)
    (cs₁ cs₂ : List (Node K V h)) : Rebalanced K V (BTreeInner K (Node K V h)) → Prop
  | borrowLeft (ks : List K) (sep : K) (cs : List (Node K V h)) (left : Node K V h)
      (hks : ks₁ = ks ++ [sep]) (hcs : cs₁ = cs ++ [left])
      (hsurplus : hasSurplus p h left = true) :
      EraseStep p h c ks₁ ks₂ cs₁ cs₂ (borrowPair h ⟨ks ++ sep :: ks₂, cs ++ left :: c :: cs₂⟩
        ks.length (borrowFromLeft p h left sep c))
  | borrowRight (ks : List K) (sep : K) (cs : List (Node K V h)) (right : Node K V h)
      (hks : ks₂ = sep :: ks) (hcs : cs₂ = right :: cs) (hsurplus : hasSurplus p h right = true) :
      EraseStep p h c ks₁ ks₂ cs₁ cs₂ (borrowPair h ⟨ks₁ ++ sep :: ks, cs₁ ++ c :: right :: cs⟩
        ks₁.length (borrowFromRight p h c sep right))
  | mergeLeft (ks : List K) (sep : K) (cs : List (Node K V h)) (left : Node K V h)
      (hks : ks₁ = ks ++ [sep]) (hcs : cs₁ = cs ++ [left])
      (hspace : hasEnoughSpace p h left (c.count h) = true) :
      EraseStep p h c ks₁ ks₂ cs₁ cs₂ (mergePair p h ⟨ks ++ sep :: ks₂, cs ++ left :: c :: cs₂⟩
        ks.length left c)
  | mergeRight (ks : List K) (sep : K) (cs : List (Node K V h)) (right : Node K V h)
      (hks : ks₂ = sep :: ks) (hcs : cs₂ = right :: cs)
      (hspace : hasEnoughSpace p h right (c.count h) = true) :
      EraseStep p h c ks₁ ks₂ cs₁ cs₂ (mergePair p h ⟨ks₁ ++ sep :: ks, cs₁ ++ c :: right :: cs⟩
        ks₁.length c right)
  | stay (hleft : ∀ left ∈ cs₁.getLast?, hasSurplus p h left = false ∧
        hasEnoughSpace p h left (c.count h) = false)
      (hright : ∀ right ∈ cs₂.head?, hasSurplus p h right = false ∧
        hasEnoughSpace p h right (c.count h) = false) :
      EraseStep p h c ks₁ ks₂ cs₁ cs₂
        ⟨⟨ks₁ ++ ks₂, cs₁ ++ c :: cs₂⟩, false, cs₁.isEmpty && cs₂.isEmpty, none⟩

section

omit [LinearOrder K]

theorem exists_last (h₁ : cs₁.length = ks₁.length) (hl : cs₁.getLast? = some l) :
    ∃ ks sep cs, ks₁ = ks ++ [sep] ∧ cs₁ = cs ++ [l] := by
  obtain ⟨cs, rfl⟩ := List.getLast?_eq_some_iff.mp hl
  obtain ⟨ks, sep, rfl⟩ := (eq_nil_or_concat' ks₁).resolve_left
    (ne_nil_of_length_pos (by rw [← h₁, length_append]; exact Nat.succ_pos _))
  exact ⟨ks, sep, cs, rfl, rfl⟩

theorem exists_first (h₂ : cs₂.length = ks₂.length) (hr : cs₂.head? = some r) :
    ∃ ks sep cs, ks₂ = sep :: ks ∧ cs₂ = r :: cs := by
  obtain ⟨cs, rfl⟩ := List.head?_eq_some_iff.mp hr
  obtain ⟨sep, ks, rfl⟩ := exists_cons_of_length_eq_add_one h₂.symm
  exact ⟨ks, sep, cs, rfl, rfl⟩

theorem eraseMerge_step (p : Params K) (c : Node K V h) (h₁ : cs₁.length = ks₁.length)
    (h₂ : cs₂.length = ks₂.length) :
    EraseStep p h c ks₁ ks₂ cs₁ cs₂
      (EraseMerge p h ⟨ks₁ ++ ks₂, cs₁ ++ c :: cs₂⟩ ks₁.length) := by
  have hchild : (cs₁ ++ c :: cs₂)[ks₁.length]? = some c := by
    rw [← h₁, List.getElem?_append_right (Nat.le_refl _), Nat.sub_self]
    rfl
  have hleft : (if 0 < ks₁.length ∧ ks₁.length - 1 < (ks₁ ++ ks₂).length then
      (cs₁ ++ c :: cs₂)[ks₁.length - 1]? else none) = cs₁.getLast? := by
    rw [← h₁, List.getLast?_eq_getElem?]
    cases cs₁ with
    | nil => rfl
    | cons d cs₁ =>
      rw [length_append, if_pos (by simp only [length_cons] at h₁ ⊢; omega),
        List.getElem?_append_left (by simp)]
  have hright : (if ks₁.length + 1 ≤ (ks₁ ++ ks₂).length then
      (cs₁ ++ c :: cs₂)[ks₁.length + 1]? else none) = cs₂.head? := by
    rw [length_append, ← h₁, ← h₂, List.getElem?_append_right (by omega),
      Nat.add_sub_cancel_left, List.getElem?_cons_succ]
    cases cs₂ with
    | nil => rw [if_neg (by simp)]; rfl
    | cons d cs₂ => rw [if_pos (by simp)]; rfl
  simp only [EraseMerge, hchild, hleft, hright]
  split
  · rename_i left hfilter
    obtain ⟨hl, hsurplus⟩ := Option.filter_eq_some_iff.mp hfilter
    obtain ⟨ks, sep, cs, rfl, rfl⟩ := exists_last h₁ hl
    have hstep : EraseStep p h c (ks ++ [sep]) ks₂ (cs ++ [left]) cs₂ _ :=
      .borrowLeft ks sep cs left rfl rfl hsurplus
    simpa using hstep
  · rename_i right _ hfilter
    obtain ⟨hr, hsurplus⟩ := Option.filter_eq_some_iff.mp hfilter
    obtain ⟨ks, sep, cs, rfl, rfl⟩ := exists_first h₂ hr
    have hstep : EraseStep p h c ks₁ (sep :: ks) cs₁ (right :: cs) _ :=
      .borrowRight ks sep cs right rfl rfl hsurplus
    simpa using hstep
  · rename_i left _ _ hfilter
    obtain ⟨hl, hspace⟩ := Option.filter_eq_some_iff.mp hfilter
    obtain ⟨ks, sep, cs, rfl, rfl⟩ := exists_last h₁ hl
    have hstep : EraseStep p h c (ks ++ [sep]) ks₂ (cs ++ [left]) cs₂ _ :=
      .mergeLeft ks sep cs left rfl rfl hspace
    simpa using hstep
  · rename_i right _ _ _ hfilter
    obtain ⟨hr, hspace⟩ := Option.filter_eq_some_iff.mp hfilter
    obtain ⟨ks, sep, cs, rfl, rfl⟩ := exists_first h₂ hr
    have hstep : EraseStep p h c ks₁ (sep :: ks) cs₁ (right :: cs) _ :=
      .mergeRight ks sep cs right rfl rfl hspace
    simpa using hstep
  · rename_i hsurplus hsurplus' hspace hspace'
    rw [Option.filter_eq_none_iff] at hsurplus hsurplus' hspace hspace'
    have hempty : (cs₁.getLast?.isNone && cs₂.head?.isNone) = (cs₁.isEmpty && cs₂.isEmpty) := by
      rw [Bool.eq_iff_iff]
      simp
    rw [hempty]
    refine .stay (fun left hl => ?_) fun right hr => ?_
    · exact ⟨Bool.not_eq_true _ ▸ hsurplus left hl, Bool.not_eq_true _ ▸ hspace left hl⟩
    · exact ⟨Bool.not_eq_true _ ▸ hsurplus' right hr, Bool.not_eq_true _ ▸ hspace' right hr⟩

end

theorem replace_pair (hsep : Separated (Loose p h) lo (ks₁ ++ sep :: ks₂) (cs₁ ++ l :: r :: cs₂) hi)
    (h₁ : cs₁.length = ks₁.length) :
    ∃ lo' hi', Loose p h lo' (some sep) l ∧ Over lo' sep ∧ Under hi' sep ∧
      Loose p h (some sep) hi' r ∧
      (∀ n, Loose p h lo' hi' n → Separated (Loose p h) lo (ks₁ ++ ks₂) (cs₁ ++ n :: cs₂) hi) ∧
      ∀ l' m r', Fits p h lo' hi' (.two l' m r') →
        Separated (Loose p h) lo (ks₁ ++ m :: ks₂) (cs₁ ++ l' :: r' :: cs₂) hi := by
  have hrow : Separated (Loose p h) lo (ks₁ ++ [sep] ++ ks₂) (cs₁ ++ [l, r] ++ cs₂) hi := by
    simpa using hsep
  obtain ⟨lo', hi', ⟨hover, hunder, hl, hr⟩, -, -, -, -, hplug⟩ := hrow.segment h₁ rfl
  refine ⟨lo', hi', hl, hover, hunder, hr, fun n hn => ?_, fun l' m r' hfits => ?_⟩
  · simpa using hplug [] [n] hn
  · simpa using hplug [m] [l', r'] ⟨hfits.2.1, hfits.2.2.1, hfits.1.1, hfits.2.2.2.1⟩

omit [LinearOrder K] in
theorem setPair_eq (l' r' : Node K V h) (m : K) (h₁ : cs₁.length = ks₁.length) :
    setPair ⟨ks₁ ++ sep :: ks₂, cs₁ ++ l :: r :: cs₂⟩ ks₁.length l' m r'
      = ⟨ks₁ ++ m :: ks₂, cs₁ ++ l' :: r' :: cs₂⟩ := by
  simp [setPair, ← h₁]

omit [LinearOrder K] in
theorem setChild_erase_eq (n : Node K V h) (h₁ : cs₁.length = ks₁.length) :
    (setChild ⟨ks₁ ++ sep :: ks₂, cs₁ ++ l :: r :: cs₂⟩ ks₁.length n).erase ks₁.length
      = ⟨ks₁ ++ ks₂, cs₁ ++ n :: cs₂⟩ := by
  have hkeys : (ks₁ ++ sep :: ks₂).eraseIdx ks₁.length = ks₁ ++ ks₂ := by
    rw [eraseIdx_append_of_length_le (Nat.le_refl _), Nat.sub_self]
    rfl
  have hchildren : (cs₁ ++ n :: r :: cs₂).eraseIdx (cs₁.length + 1) = cs₁ ++ n :: cs₂ := by
    rw [eraseIdx_append_of_length_le (Nat.le_add_right _ 1), Nat.add_sub_cancel_left]
    rfl
  have hset : (cs₁ ++ l :: r :: cs₂).set cs₁.length n = cs₁ ++ n :: r :: cs₂ := by simp
  rw [setChild, erase, hkeys, ← h₁, hset, hchildren]

end EraseMerge

-- A node on the way back of a removal. It may be without a key only if its parent, or the
-- tree, is told.
structure Rebalanced.Fits (p : Params K) (h : Nat) (lo hi : Option K)
    (r : Rebalanced K V (Node K V h)) : Prop where
  loose : Loose p h lo hi r.node
  count : r.up = false → 1 ≤ r.node.count h
  need : r.up = true → needMerge p h r.node = true
  inner : h ≠ 0 → r.merged = false → 1 ≤ r.node.count h

structure EraseSpec (p : Params K) (h : Nat) (lo hi : Option K) (cs : List (Node K V h))
    (m : Rebalanced K V (BTreeInner K (Node K V h))) : Prop where
  fits : Rebalanced.Fits (V := V) p (h + 1) lo hi m
  entries_eq : Node.entries (V := V) (h + 1) m.node = cs.flatMap (Node.entries h)
  links : LinkSpec (cs.flatMap (Node.ids h)) (Node.ids (V := V) (h + 1) m.node) m.leaves

section Fits

variable {ks₁ ks₂ : List K} {cs₁ cs₂ : List (Node K V h)} {c l r : Node K V h} {sep : K}
  (hsep : Separated (Loose p h) lo (ks₁ ++ sep :: ks₂) (cs₁ ++ l :: r :: cs₂) hi)
  (h₁ : cs₁.length = ks₁.length) (hcounts₁ : ∀ d ∈ cs₁, 1 ≤ count h d)
  (hcounts₂ : ∀ d ∈ cs₂, 1 ≤ count h d) (hmax : (ks₁ ++ sep :: ks₂).length + 1 ≤ p.innerMax)

include hsep h₁ hcounts₁ hcounts₂ hmax

theorem borrowPair_spec {res : Node K V h × K × Node K V h}
    (hres : ∀ lo' hi', Loose p h lo' (some sep) l → Over lo' sep → Under hi' sep →
      Loose p h (some sep) hi' r → ∃ l' m r', res = (l', m, r') ∧
        Fits p h lo' hi' (.two l' m r') ∧ SamePair h l' r' l r) :
    EraseSpec p h lo hi (cs₁ ++ l :: r :: cs₂)
      (borrowPair h ⟨ks₁ ++ sep :: ks₂, cs₁ ++ l :: r :: cs₂⟩ ks₁.length res) := by
  obtain ⟨lo', hi', hl, hover, hunder, hr, -, hplug⟩ := replace_pair hsep h₁
  obtain ⟨l', m, r', rfl, hfits, hentries, hids⟩ := hres lo' hi' hl hover hunder hr
  have hcount : 1 ≤ (ks₁ ++ m :: ks₂).length := by
    rw [length_append, length_cons]
    omega
  rw [borrowPair, setPair_eq l' r' m h₁]
  refine ⟨⟨⟨hplug l' m r' hfits, ?_, ?_⟩, fun _ => hcount, nofun, fun _ _ => hcount⟩, ?_, ?_⟩
  · intro d hd
    rcases mem_append.mp hd with hd | hd
    · exact hcounts₁ d hd
    · rcases mem_cons.mp hd with rfl | hd
      · exact hfits.1.2
      · rcases mem_cons.mp hd with rfl | hd
        · exact hfits.2.2.2.2
        · exact hcounts₂ d hd
  · rw [length_append, length_cons] at hmax ⊢
    exact hmax
  · rw [entries_succ]
    simp only [flatMap_append, flatMap_cons]
    rw [← append_assoc (Node.entries h l'), hentries, append_assoc]
  · rw [ids_succ, LinkSpec]
    simp only [flatMap_append, flatMap_cons]
    rw [← append_assoc (Node.ids h l'), hids, append_assoc]

theorem mergePair_spec (hres : ∀ lo' hi', Loose p h lo' (some sep) l → Over lo' sep →
      Under hi' sep → Loose p h (some sep) hi' r → WF p h lo' hi' (l.merge p h r) ∧
        (l.merge p h r).entries h = l.entries h ++ r.entries h ∧
        LinkSpec (l.ids h ++ r.ids h) ((l.merge p h r).ids h) (mergedLeaves h l r)) :
    EraseSpec p h lo hi (cs₁ ++ l :: r :: cs₂)
      (mergePair p h ⟨ks₁ ++ sep :: ks₂, cs₁ ++ l :: r :: cs₂⟩ ks₁.length l r) := by
  obtain ⟨lo', hi', hl, hover, hunder, hr, hplug, -⟩ := replace_pair hsep h₁
  obtain ⟨hwf, hentries, hlinks⟩ := hres lo' hi' hl hover hunder hr
  rw [mergePair, setChild_erase_eq (l.merge p h r) h₁]
  rw [length_append, length_cons] at hmax
  refine ⟨⟨⟨hplug _ hwf.1, ?_, ?_⟩, fun hup => ?_, fun hup => hup, nofun⟩, ?_, ?_⟩
  · intro d hd
    rcases mem_append.mp hd with hd | hd
    · exact hcounts₁ d hd
    · rcases mem_cons.mp hd with rfl | hd
      · exact hwf.2
      · exact hcounts₂ d hd
  · rw [length_append]
    omega
  · -- Without a key it would be merged itself.
    change 1 ≤ (ks₁ ++ ks₂).length
    rw [needMerge, decide_eq_false_iff_not] at hup
    dsimp only [count, maxEntries] at hup
    omega
  · rw [entries_succ]
    simp only [flatMap_append, flatMap_cons]
    rw [hentries, append_assoc]
  · have happend := hlinks.append (cs₁.flatMap (Node.ids h)) (cs₂.flatMap (Node.ids h))
    rw [ids_succ]
    simpa only [flatMap_append, flatMap_cons, append_assoc] using happend

end Fits

section EraseMerge

variable {ks₁ ks₂ : List K} {cs₁ cs₂ : List (Node K V h)} {c : Node K V h}

theorem eraseMerge_spec (hroomy : p.Roomy)
    (hsep : Separated (Loose p h) lo (ks₁ ++ ks₂) (cs₁ ++ c :: cs₂) hi)
    (h₁ : cs₁.length = ks₁.length) (hcounts₁ : ∀ d ∈ cs₁, 1 ≤ count h d)
    (hcounts₂ : ∀ d ∈ cs₂, 1 ≤ count h d) (hmax : (ks₁ ++ ks₂).length + 1 ≤ p.innerMax)
    (hkeys : 1 ≤ (ks₁ ++ ks₂).length) (hneed : needMerge p h c = true) :
    EraseSpec p h lo hi (cs₁ ++ c :: cs₂)
      (EraseMerge p h ⟨ks₁ ++ ks₂, cs₁ ++ c :: cs₂⟩ ks₁.length) := by
  have h₂ : cs₂.length = ks₂.length := by
    have hlength := hsep.length_eq
    simp only [length_append, length_cons] at hlength
    omega
  have hstep := eraseMerge_step p c h₁ h₂
  generalize EraseMerge p h ⟨ks₁ ++ ks₂, cs₁ ++ c :: cs₂⟩ ks₁.length = m at hstep ⊢
  cases hstep with
  | borrowLeft ks sep cs left hks hcs hsurplus =>
    subst hks hcs
    simp only [append_assoc, singleton_append] at hsep hmax ⊢
    exact borrowPair_spec hsep (by simpa using h₁) (fun d hd => hcounts₁ d (mem_append_left _ hd))
      hcounts₂ hmax fun _ _ hl hover hunder hr =>
        borrowFromLeft_fits hroomy hl hover hunder hr hneed hsurplus
  | borrowRight ks sep cs right hks hcs hsurplus =>
    subst hks hcs
    exact borrowPair_spec hsep h₁ hcounts₁ (fun d hd => hcounts₂ d (mem_cons_of_mem _ hd))
      hmax fun _ _ hl hover hunder hr =>
        borrowFromRight_fits hroomy hl hover hunder hr hneed hsurplus
  | mergeLeft ks sep cs left hks hcs hspace =>
    subst hks hcs
    simp only [append_assoc, singleton_append] at hsep hmax ⊢
    have hcount : 1 ≤ count h left := hcounts₁ left (by simp)
    exact mergePair_spec hsep (by simpa using h₁) (fun d hd => hcounts₁ d (mem_append_left _ hd))
      hcounts₂ hmax fun _ _ hl hover hunder hr =>
        merge_fits hroomy hl hover hunder hr hspace (by omega)
  | mergeRight ks sep cs right hks hcs hspace =>
    subst hks hcs
    have hcount : 1 ≤ count h right := hcounts₂ right (by simp)
    exact mergePair_spec hsep h₁ hcounts₁ (fun d hd => hcounts₂ d (mem_cons_of_mem _ hd))
      hmax fun _ _ hl hover hunder hr =>
        merge_fits hroomy hl hover hunder hr (hasEnoughSpace_comm.trans hspace) (by omega)
  | stay hleft hright =>
    have hsibling : 1 ≤ count h c ∧ (cs₁.isEmpty && cs₂.isEmpty) = false := by
      cases hl : cs₁.getLast? with
      | some left =>
        obtain ⟨hsurplus, hspace⟩ := hleft left hl
        obtain ⟨ks, sep, cs, -, rfl⟩ := exists_last h₁ hl
        exact ⟨count_pos_of_no_space hroomy hsurplus hspace, by simp⟩
      | none =>
        obtain rfl := List.getLast?_eq_none_iff.mp hl
        obtain rfl := length_eq_zero_iff.mp h₁.symm
        match cs₂, h₂ with
        | [], h₂ => exact absurd hkeys (by simp [← h₂])
        | right :: cs, _ =>
          obtain ⟨hsurplus, hspace⟩ := hright right rfl
          exact ⟨count_pos_of_no_space hroomy hsurplus hspace, rfl⟩
    rw [hsibling.2]
    refine ⟨⟨⟨hsep, ?_, hmax⟩, fun _ => hkeys, nofun, fun _ _ => hkeys⟩, entries_succ _,
      ids_succ _⟩
    intro d hd
    rcases mem_append.mp hd with hd | hd
    · exact hcounts₁ d hd
    · rcases mem_cons.mp hd with rfl | hd
      · exact hsibling.1
      · exact hcounts₂ d hd

omit [LinearOrder K] in
theorem eraseMerge_leaves (c : Node K V (h + 1)) {cs₁ cs₂ : List (Node K V (h + 1))}
    (h₁ : cs₁.length = ks₁.length) (h₂ : cs₂.length = ks₂.length) :
    (EraseMerge p (h + 1) ⟨ks₁ ++ ks₂, cs₁ ++ c :: cs₂⟩ ks₁.length).leaves = none := by
  have hstep := eraseMerge_step p c h₁ h₂
  generalize EraseMerge p (h + 1) ⟨ks₁ ++ ks₂, cs₁ ++ c :: cs₂⟩ ks₁.length = m at hstep ⊢
  cases hstep with
  | borrowLeft | borrowRight | mergeLeft | mergeRight | stay => rfl

end EraseMerge

def RemoveSpec (k : K) (es es' : List (K × V)) : Bool → Prop
  | true => ∃ v es₁ es₂, Parted k es₁ es₂ ∧ es = es₁ ++ (k, v) :: es₂ ∧ es' = es₁ ++ es₂
  | false => es' = es ∧ ∃ es₁ es₂, Parted k es₁ es₂ ∧ es = es₁ ++ es₂

theorem RemoveSpec.append {es es' fs₁ fs₂ : List (K × V)} {b : Bool}
    (hspec : RemoveSpec k es es' b) (hparted : Parted k fs₁ fs₂) :
    RemoveSpec k (fs₁ ++ (es ++ fs₂)) (fs₁ ++ (es' ++ fs₂)) b := by
  cases b with
  | true =>
    obtain ⟨v, es₁, es₂, hparted', rfl, rfl⟩ := hspec
    exact ⟨v, fs₁ ++ es₁, es₂ ++ fs₂, hparted'.append hparted, by simp, by simp⟩
  | false =>
    obtain ⟨rfl, es₁, es₂, hparted', rfl⟩ := hspec
    exact ⟨rfl, fs₁ ++ es₁, es₂ ++ fs₂, hparted'.append hparted, by simp⟩

theorem BTreeLeaf.erase_spec {l : BTreeLeaf K V} (hl : Loose (V := V) p 0 lo hi l) (k : K) :
    Loose (V := V) p 0 lo hi (l.erase k) ∧
      RemoveSpec k l.entries (l.erase k).entries (l.contains k) := by
  obtain ⟨hsorted, hbounds, hmax⟩ := hl
  obtain ⟨es₁, es₂, hparted, hbound, ⟨hc, v, heq⟩ | ⟨hc, heq⟩⟩ := l.parts hsorted k
  · have herase : (l.erase k).entries = es₁ ++ es₂ := by
      rw [erase, if_pos hc, hbound, heq, eraseIdx_append_of_length_le (Nat.le_refl _),
        Nat.sub_self]
      rfl
    have hsub : (l.erase k).entries.Sublist l.entries := by
      rw [herase, heq]
      exact (sublist_cons_self _ _).append_left es₁
    rw [hc]
    exact ⟨⟨hsorted.sublist hsub, fun e he => hbounds e (hsub.subset he),
      Nat.le_trans hsub.length_le hmax⟩, v, es₁, es₂, hparted, heq, herase⟩
  · have herase : l.erase k = l := if_neg (by simp [hc])
    rw [herase, hc]
    exact ⟨⟨hsorted, hbounds, hmax⟩, rfl, es₁, es₂, hparted, heq⟩

theorem Node.remove_succ (p : Params K) (should_remove : Bool) (n : BTreeInner K (Node K V h))
    {c : Node K V h} (hc : n.childFor k = some c) :
    Node.remove (V := V) p should_remove (h + 1) n k =
      let r := c.remove p should_remove h k
      let m := EraseMerge p h (n.setChild (lowerBound n.keys k) r.node) (lowerBound n.keys k)
      if r.up then ⟨{ m with leaves := m.leaves <|> r.leaves }, r.success⟩
      else ⟨⟨n.setChild (lowerBound n.keys k) r.node, false, false, r.leaves⟩, r.success⟩ := by
  rw [Node.remove, hc]

structure RemoveEffect (k : K) (should_remove : Bool) (es es' : List (K × V)) (ids ids' : List Nat)
    (success : Bool) (leaves : Option (BTreeLeaf K V × BTreeLeaf K V)) : Prop where
  removed : should_remove = true → RemoveSpec k es es' success
  kept : should_remove = false → es' = es ∧ success = false
  links : LinkSpec ids ids' leaves

theorem RemoveEffect.append {should_remove success : Bool} {es es' fs₁ fs₂ : List (K × V)}
    {ids ids' : List Nat} {leaves : Option (BTreeLeaf K V × BTreeLeaf K V)}
    (heffect : RemoveEffect k should_remove es es' ids ids' success leaves)
    (hparted : Parted k fs₁ fs₂) (xs ys : List Nat) :
    RemoveEffect k should_remove (fs₁ ++ (es ++ fs₂)) (fs₁ ++ (es' ++ fs₂)) (xs ++ (ids ++ ys))
      (xs ++ (ids' ++ ys)) success leaves where
  removed := fun hshould => (heffect.removed hshould).append hparted
  kept := fun hshould => by
    obtain ⟨heq, hsuccess⟩ := heffect.kept hshould
    exact ⟨by rw [heq], hsuccess⟩
  links := heffect.links.append xs ys

structure Removed.Spec (p : Params K) (h : Nat) (lo hi : Option K) (k : K) (should_remove : Bool)
    (n : Node K V h) (r : Removed K V (Node K V h)) : Prop where
  fits : r.toRebalanced.Fits p h lo hi
  effect : RemoveEffect k should_remove (n.entries h) (r.node.entries h) (n.ids h) (r.node.ids h)
    r.success r.leaves

theorem Node.remove_leaf_spec (hroomy : p.Roomy) {l : BTreeLeaf K V}
    (hl : Loose (V := V) p 0 lo hi l) (should_remove : Bool) :
    (Node.remove (V := V) p should_remove 0 l k).Spec p 0 lo hi k should_remove l := by
  have hge := hroomy.leaf_ge
  have hcount : ∀ l' : BTreeLeaf K V, needMerge (V := V) p 0 l' = false →
      1 ≤ l'.entries.length := by
    intro l' hup
    rw [needMerge, decide_eq_false_iff_not] at hup
    dsimp only [count, maxEntries] at hup
    omega
  obtain ⟨hloose, hspec⟩ := BTreeLeaf.erase_spec hl k
  cases should_remove with
  | true =>
    refine ⟨⟨hloose, hcount _, fun hup => hup, fun hne => absurd rfl hne⟩, fun _ => ?_, nofun,
      ?_⟩
    · rw [entries_zero l]
      change RemoveSpec k _ (Node.entries (V := V) 0 (l.erase k)) _
      rw [entries_zero]
      exact hspec
    · change [(l.erase k).id] = [l.id]
      rw [BTreeLeaf.erase, apply_ite BTreeLeaf.id, ite_self]
  | false =>
    exact ⟨⟨hl, hcount l, fun hup => hup, fun hne => absurd rfl hne⟩, nofun,
      fun _ => ⟨rfl, rfl⟩, rfl⟩

theorem Node.remove_spec (hroomy : p.Roomy) {n : Node K V h} (hn : Loose p h lo hi n)
    (hcount : h ≠ 0 → 1 ≤ count h n) (hlo : Over lo k) (hhi : UpTo hi k) (should_remove : Bool) :
    (n.remove p should_remove h k).Spec p h lo hi k should_remove n := by
  induction h generalizing lo hi with
  | zero => exact Node.remove_leaf_spec hroomy hn should_remove
  | succ h ih =>
    obtain ⟨ks₁, ks₂, cs₁, c, cs₂, lo', hi', hf⟩ := Focus.exists_focus hn.1 hlo hhi
    have hkeys : 1 ≤ (ks₁ ++ ks₂).length := hf.keys_eq ▸ hcount (Nat.succ_ne_zero h)
    have hcounts := hn.2.1
    have hmax := hn.2.2
    rw [hf.children_eq] at hcounts
    rw [hf.keys_eq] at hmax
    have hc : 1 ≤ count h c := hcounts c (by simp)
    have hcounts₁ : ∀ d ∈ cs₁, 1 ≤ count h d := fun d hd =>
      hcounts d (mem_append_left _ hd)
    have hcounts₂ : ∀ d ∈ cs₂, 1 ≤ count h d := fun d hd =>
      hcounts d (mem_append_right _ (mem_cons_of_mem c hd))
    have hchild := ih hf.child (fun _ => hc) hf.above hf.upTo
    generalize hr : c.remove p should_remove h k = r at hchild
    have hsep : Separated (Loose p h) lo (ks₁ ++ ks₂) (cs₁ ++ r.node :: cs₂) hi := by
      simpa using hf.plug [] [r.node] hchild.fits.loose
    have heffect : RemoveEffect k should_remove (Node.entries (V := V) (h + 1) n)
        ((cs₁ ++ r.node :: cs₂).flatMap (Node.entries h)) (Node.ids (V := V) (h + 1) n)
        ((cs₁ ++ r.node :: cs₂).flatMap (Node.ids h)) r.success r.leaves := by
      have hparted : Parted k (cs₁.flatMap (Node.entries h)) (cs₂.flatMap (Node.entries h)) := by
        have hleaves := hf.parted hn.1
        rwa [flatMap_assoc, flatMap_assoc] at hleaves
      have happend := hchild.effect.append hparted (cs₁.flatMap (Node.ids h))
        (cs₂.flatMap (Node.ids h))
      rw [entries_succ n, ids_succ n, hf.children_eq]
      simpa only [flatMap_append, flatMap_cons] using happend
    rw [remove_succ p should_remove n hf.childFor_eq, hr]
    dsimp only
    rw [hf.setChild_eq, hf.lowerBound_eq]
    split
    · rename_i hup
      have hmerge := eraseMerge_spec hroomy hsep hf.length_eq hcounts₁ hcounts₂ hmax hkeys
        (hchild.fits.need hup)
      have hone : r.leaves = none ∨
          (EraseMerge p h ⟨ks₁ ++ ks₂, cs₁ ++ r.node :: cs₂⟩ ks₁.length).leaves = none := by
        cases h with
        | zero => exact .inl (hr ▸ rfl)
        | succ h => exact .inr (eraseMerge_leaves r.node hf.length_eq (hf.length_cs₂ hn.1))
      refine ⟨⟨hmerge.fits.loose, hmerge.fits.count, hmerge.fits.need, hmerge.fits.inner⟩,
        ?_, ?_, heffect.links.trans hmerge.links hone⟩
      · rw [hmerge.entries_eq]
        exact heffect.removed
      · rw [hmerge.entries_eq]
        exact heffect.kept
    · rename_i hup
      have hnode := hchild.fits.count (Bool.not_eq_true _ ▸ hup)
      refine ⟨⟨⟨hsep, ?_, hmax⟩, fun _ => hkeys, nofun, fun _ _ => hkeys⟩, ?_⟩
      · intro d hd
        rcases mem_append.mp hd with hd | hd
        · exact hcounts₁ d hd
        · rcases mem_cons.mp hd with rfl | hd
          · exact hnode
          · exact hcounts₂ d hd
      · rw [entries_succ n, ids_succ n] at heffect ⊢
        dsimp only
        rw [entries_succ, ids_succ]
        exact heffect

namespace Tree

variable {t : Tree K V}

theorem shrink_spec (t : Tree K V) {r : Rebalanced K V (Node K V h)}
    (hr : r.Fits p h none none) :
    (t.shrink h r).WF p ∧ (t.shrink h r).leaves = r.node.leaves h := by
  cases h with
  | zero => exact ⟨⟨hr.loose, fun hne => absurd rfl hne⟩, rfl⟩
  | succ h =>
    obtain ⟨hsep, hcounts, -⟩ := hr.loose
    rw [shrink]
    split
    · rename_i c hmerged hchildren
      rw [Bool.and_eq_true] at hmerged
      rw [isEmpty_iff.mp hmerged.2, hchildren] at hsep
      refine ⟨⟨hsep, fun _ => hcounts c (by rw [hchildren]; simp)⟩, ?_⟩
      rw [Node.leaves, hchildren, flatMap_singleton]
      rfl
    · rename_i hne
      refine ⟨⟨hr.loose, fun hheight => ?_⟩, rfl⟩
      cases hmerged : r.merged with
      | false => exact hr.inner hheight hmerged
      | true =>
        by_contra hzero
        have hkeys : keys r.node = [] :=
          length_eq_zero_iff.mp (Nat.eq_zero_of_not_pos hzero)
        have hlength := hsep.length_eq
        rw [hkeys] at hlength
        obtain ⟨c, hc⟩ := length_eq_one_iff.mp hlength
        exact hne c (by rw [hmerged, hkeys]; rfl) hc

omit [LinearOrder K] in
theorem shrink_links (t : Tree K V) (r : Rebalanced K V (Node K V h)) :
    (t.shrink h r).links = t.links := by
  cases h with
  | zero => rfl
  | succ h =>
    rw [shrink]
    split
    · rfl
    · rfl

theorem linkMerge_wf (leaves : Option (BTreeLeaf K V × BTreeLeaf K V)) (ht : t.WF p) :
    (t.linkMerge leaves).WF p ∧ (t.linkMerge leaves).leaves = t.leaves := by
  cases leaves with
  | none | some pair => exact ⟨ht, rfl⟩

def ids (t : Tree K V) : List Nat := t.leaves.map BTreeLeaf.id

theorem removeIf_spec (hroomy : p.Roomy) (ht : t.WF p) (should_remove : Bool) (k : K) :
    (t.removeIf p should_remove k).1.WF p ∧
      RemoveEffect k should_remove t.entries (t.removeIf p should_remove k).1.entries t.ids
        (t.removeIf p should_remove k).1.ids (t.removeIf p should_remove k).2
        (t.root.remove p should_remove t.height k).leaves := by
  have hspec := Node.remove_spec hroomy ht.1 ht.2 (over_none k) (upTo_none k) should_remove
  obtain ⟨hwf, hleaves⟩ := shrink_spec t hspec.fits
  obtain ⟨hwf', hleaves'⟩ :=
    linkMerge_wf (t.root.remove p should_remove t.height k).leaves hwf
  refine ⟨hwf', ?_⟩
  have heq := hleaves'.trans hleaves
  rw [removeIf]
  dsimp only
  rw [entries, entries, ids, ids, heq]
  exact hspec.effect

theorem remove_spec (hroomy : p.Roomy) (ht : t.WF p) (k : K) :
    (t.remove p k).1.WF p ∧ RemoveSpec k t.entries (t.remove p k).1.entries (t.remove p k).2 := by
  obtain ⟨hwf, heffect⟩ := removeIf_spec hroomy ht true k
  exact ⟨hwf, heffect.removed rfl⟩

end Tree

end Tigon.BTreeOLC.BPlusTree
