import Tigon.BTreeOLC.BPlusTree.Insert

namespace Tigon.BTreeOLC.BPlusTree

open List Option BTreeInner Grown Tigon.Library
open Node

variable {K V : Type} [LinearOrder K]

namespace Node

def fullCount (p : Params K) : (h : Nat) → Node K V h → K → Nat
  | 0, _, _ => 0
  | h + 1, (n : BTreeInner K (Node K V h)), k =>
    (if n.isFull p then 1 else 0) + ((n.childFor k).map fun c => fullCount p h c k).getD 0

def fullDepth (p : Params K) : (h : Nat) → Node K V h → K → Nat
  | 0, _, _ => 0
  | h + 1, (n : BTreeInner K (Node K V h)), k =>
    if n.isFull p then 0 else ((n.childFor k).map fun c => fullDepth p h c k).getD 0 + 1

end Node

variable {p : Params K} {lo hi lo' hi' : Option K} {k : K} {h : Nat}

theorem fullDepth_le (n : Node K V h) : fullDepth p h n k ≤ h := by
  induction h with
  | zero => exact Nat.le_refl 0
  | succ h ih =>
    rw [fullDepth]
    split
    · exact Nat.zero_le _
    · cases hc : childFor n k with
      | none => simp
      | some c => simpa using ih c

theorem fullCount_le (n : Node K V h) : fullCount p h n k ≤ h := by
  induction h with
  | zero => exact Nat.le_refl 0
  | succ h ih =>
    rw [fullCount]
    cases hc : childFor n k with
    | none =>
      simp only [map_none, getD_none]
      split <;> omega
    | some c =>
      have hle := ih c
      simp only [map_some, getD_some]
      split <;> omega

-- What a split of the first full node leaves of the full nodes on the way: it may have filled
-- the node above.
def Grown.Fewer (p : Params K) (h : Nat) (k : K) (n : Node K V h) : Grown K (Node K V h) → Prop
  | .one n' => fullCount p h n' k < fullCount p h n k ∨
      fullCount p h n' k = fullCount p h n k ∧ fullDepth p h n' k < fullDepth p h n k
  | .two l sep r => fullCount p h ((two l sep r).pick k) k < fullCount p h n k ∧
      fullDepth p h n k = 0

section Inner

variable {n : BTreeInner K (Node K V h)} {ks₁ ks₂ : List K} {cs₁ cs₂ : List (Node K V h)}
  {c : Node K V h}

theorem fullCount_succ (hfull : n.isFull p = false) (hc : n.childFor k = some c) :
    fullCount (V := V) p (h + 1) n k = fullCount p h c k := by
  rw [fullCount, hc, hfull]
  simp

theorem fullDepth_succ (hfull : n.isFull p = false) (hc : n.childFor k = some c) :
    fullDepth (V := V) p (h + 1) n k = fullDepth p h c k + 1 := by
  rw [fullDepth, hc, hfull]
  simp

theorem fullCount_succ_of_full (hfull : n.isFull p = true) (hc : n.childFor k = some c) :
    fullCount (V := V) p (h + 1) n k = fullCount p h c k + 1 := by
  rw [fullCount, hc, hfull]
  simp [Nat.add_comm]

theorem fullDepth_of_full (hfull : n.isFull p = true) :
    fullDepth (V := V) p (h + 1) n k = 0 := by
  rw [fullDepth, if_pos hfull]

omit [LinearOrder K] in
theorem not_isFull_of_lt (hlt : n.keys.length < p.innerMax - 1) : n.isFull p = false := by
  simp only [isFull, decide_eq_false_iff_not]
  omega

theorem split_childFor (hsep : Separated (Loose p h) lo n.keys n.children hi)
    (htwo : 2 ≤ n.keys.length) : ((n.split p).pick k).childFor k = n.childFor k := by
  obtain ⟨ks₁, sep, ks₂, cs₁, cs₂, hkeys_eq, hchildren_eq, hlength₁, -, hsplit⟩ :=
    split_eq p hsep.length_eq htwo
  have hsorted := hsep.sorted
  rw [hkeys_eq] at hsorted
  have hnode : n = ⟨ks₁ ++ sep :: ks₂, cs₁ ++ cs₂⟩ := by rw [← hkeys_eq, ← hchildren_eq]
  rw [hsplit, pick, hnode, childFor_append hsorted hlength₁ cs₂ k]
  split
  · rfl
  · rfl

theorem split_not_full (hroomy : p.Roomy) (hlength : n.children.length = n.keys.length + 1)
    (hfull : n.isFull p = true) : ((n.split p).pick k).isFull p = false := by
  have hge := hroomy.inner_ge
  have hkeys := length_of_isFull hfull
  obtain ⟨ks₁, sep, ks₂, cs₁, cs₂, hkeys_eq, -, -, hhalf, hsplit⟩ :=
    split_eq p hlength (by omega)
  have hlength : n.keys.length = ks₁.length + (ks₂.length + 1) := by
    rw [hkeys_eq, length_append, length_cons]
  rw [hsplit, pick]
  split
  · exact not_isFull_of_lt (by dsimp only; omega)
  · exact not_isFull_of_lt (by dsimp only; omega)

theorem split_fewer (hroomy : p.Roomy) (hn : WF p (h + 1) lo hi n) (hlo : Over lo k)
    (hhi : UpTo hi k) (hfull : n.isFull p = true) :
    Fewer p (h + 1) k n (n.split p) := by
  have hge := hroomy.inner_ge
  have hkeys := length_of_isFull hfull
  have hsep := hn.1.1
  obtain ⟨ks₁, ks₂, cs₁, c, cs₂, lo', hi', hf⟩ := Focus.exists_focus hsep hlo hhi
  have hchild := (split_childFor (p := p) (k := k) hsep (by omega)).trans hf.childFor_eq
  have hcount : fullCount (V := V) p (h + 1) ((n.split p).pick k) k <
      fullCount (V := V) p (h + 1) n k := by
    rw [fullCount_succ (split_not_full hroomy hsep.length_eq hfull) hchild,
      fullCount_succ_of_full hfull hf.childFor_eq]
    exact Nat.lt_succ_self _
  exact ⟨hcount, fullDepth_of_full hfull⟩

theorem place_fewer (hroomy : p.Roomy) (hn : WF p (h + 1) lo hi n) (hfull : n.isFull p = false)
    (hf : Focus (Loose p h) lo hi n k ks₁ ks₂ cs₁ c cs₂ lo' hi') {g : Grown K (Node K V h)}
    (hg : g.Fits p h lo' hi') (hfewer : g.Fewer p h k c) :
    Fewer p (h + 1) k n (.one (n.place (lowerBound n.keys k) g)) := by
  have hc := hf.childFor_eq
  have hchild := place_childFor hroomy hn hfull hf hg
  cases g with
  | one c' =>
    have hfull' : (n.place (lowerBound n.keys k) (.one c')).isFull p = false := hfull
    rw [Fewer, fullCount_succ hfull' hchild, fullCount_succ hfull hc,
      fullDepth_succ hfull' hchild, fullDepth_succ hfull hc]
    rcases hfewer with hlt | ⟨heq, hlt⟩
    · exact .inl hlt
    · exact .inr ⟨heq, Nat.succ_lt_succ hlt⟩
  | two l sep r =>
    obtain ⟨hlt, hdepth⟩ := hfewer
    -- The node may have become full itself. It is then the first full one.
    cases hfull' : (n.place (lowerBound n.keys k) (.two l sep r)).isFull p with
    | true =>
      rw [Fewer, fullCount_succ_of_full hfull' hchild, fullCount_succ hfull hc,
        fullDepth_of_full hfull', fullDepth_succ hfull hc]
      omega
    | false =>
      rw [Fewer, fullCount_succ hfull' hchild, fullCount_succ hfull hc]
      exact .inl hlt

end Inner

theorem height_ne_zero_of_splitFull {n : Node K V h} {g : Grown K (Node K V h)}
    (hg : splitFull p h n k = some g) : h ≠ 0 := by
  rintro rfl
  cases hg

theorem splitFull_fewer (hroomy : p.Roomy) {n : Node K V h} (hn : WF p h lo hi n)
    (hlo : Over lo k) (hhi : UpTo hi k) {g : Grown K (Node K V h)}
    (hg : splitFull p h n k = some g) :
    g.Fewer p h k n ∧ leafFor h (g.pick k) k = leafFor h n k := by
  induction h generalizing lo hi with
  | zero => cases hg
  | succ h ih =>
    rw [splitFull_succ p n k] at hg
    split at hg
    · rename_i hfull
      have hge := hroomy.inner_ge
      have hkeys := length_of_isFull hfull
      obtain rfl := some.inj hg
      refine ⟨split_fewer hroomy hn hlo hhi hfull, ?_⟩
      rw [leafFor_succ, split_childFor hn.1.1 (by omega), leafFor_succ]
    · rename_i hfull
      rw [Bool.not_eq_true] at hfull
      obtain ⟨ks₁, ks₂, cs₁, c, cs₂, lo', hi', hf⟩ := Focus.exists_focus hn.1.1 hlo hhi
      rw [hf.childFor_eq, bind_some, map_eq_some_iff] at hg
      obtain ⟨g', hg', rfl⟩ := hg
      have hc : WF p h lo' hi' c := ⟨hf.child, hn.1.2.1 c (by rw [hf.children_eq]; simp)⟩
      have hfits := (splitFull_fits hroomy hc hf.above hf.upTo hg').1
      obtain ⟨hfewer, hleaf⟩ := ih hc hf.above hf.upTo hg'
      refine ⟨place_fewer hroomy hn hfull hf hfits hfewer, ?_⟩
      have hchild := place_childFor hroomy hn hfull hf hfits
      rw [pick, leafFor_succ, hchild, leafFor_succ n k, hf.childFor_eq]
      exact hleaf

namespace Tree

def leaves (t : Tree K V) : List (BTreeLeaf K V) := t.root.leaves t.height

def entries (t : Tree K V) : List (K × V) := t.leaves.flatMap BTreeLeaf.entries

-- The root may be a leaf without entries.
def WF (p : Params K) (t : Tree K V) : Prop :=
  Loose p t.height none none t.root ∧ (t.height ≠ 0 → 1 ≤ t.root.count t.height)

variable {t t' : Tree K V} {v : V}

theorem wf_empty (p : Params K) : (empty : Tree K V).WF p :=
  ⟨⟨.nil, forall_mem_nil _, Nat.zero_le _⟩, fun hne => absurd rfl hne⟩

theorem WF.grow (hroomy : p.Roomy) {g : Grown K (Node K V t.height)}
    (hg : g.Fits p t.height none none) : (t.grow g).WF p ∧ (t.grow g).leaves = g.leaves := by
  cases g with
  | one n => exact ⟨⟨hg.1, fun _ => hg.2⟩, rfl⟩
  | two l sep r =>
    have hge := hroomy.inner_ge
    refine ⟨⟨⟨⟨over_none _, under_none _, hg.1.1, hg.2.2.2.1⟩, ?_, ?_⟩,
      fun _ => Nat.le_refl 1⟩, ?_⟩
    · intro c hc
      rcases mem_cons.mp hc with rfl | hc
      · exact hg.1.2
      · rw [mem_singleton.mp hc]
        exact hg.2.2.2.2
    · change 1 + 1 ≤ p.innerMax
      omega
    · change [l, r].flatMap (Node.leaves t.height) = _
      rw [flatMap_cons, flatMap_singleton, Grown.leaves]

def links (t : Tree K V) : Nat × (Nat → Option Nat) × (Nat → Option Nat) × (Nat → List (K × V)) :=
  (t.newId, t.pre_, t.next_, t.retired)

omit [LinearOrder K] in
theorem grow_links (g : Grown K (Node K V t.height)) : (t.grow g).links = t.links := by
  cases g with
  | one n | two l sep r => rfl

theorem grow_childFor (t : Tree K V) (l r : Node K V t.height) (sep k : K) :
    childFor ⟨[sep], [l, r]⟩ k = some ((two l sep r).pick k) := by
  have hsorted : ([] ++ sep :: []).Pairwise (· < ·) := pairwise_singleton _ sep
  exact childFor_two [] [] l r hsorted rfl (forall_mem_nil _) (forall_mem_nil _)

theorem grow_leafFor (g : Grown K (Node K V t.height)) (k : K) :
    (t.grow g).root.leafFor (t.grow g).height k = leafFor t.height (g.pick k) k := by
  cases g with
  | one n => rfl
  | two l sep r =>
    change (childFor ⟨[sep], [l, r]⟩ k).bind _ = _
    rw [grow_childFor]
    rfl

theorem grow_fewer (hroomy : p.Roomy) {fuel bound : Nat} {g : Grown K (Node K V t.height)}
    (hfewer : g.Fewer p t.height k t.root)
    (hfuel : fullCount p t.height t.root k * bound + fullDepth p t.height t.root k < fuel + 1)
    (hbound : t.height + fullCount p t.height t.root k < bound) :
    fullCount p (t.grow g).height (t.grow g).root k * bound
        + fullDepth p (t.grow g).height (t.grow g).root k < fuel ∧
      (t.grow g).height + fullCount p (t.grow g).height (t.grow g).root k < bound := by
  cases g with
  | one n =>
    have hdepth := fullDepth_le (p := p) (k := k) n
    dsimp only [grow]
    rcases hfewer with hlt | ⟨heq, hlt⟩
    · have hmul := Nat.mul_le_mul_right bound (Nat.succ_le_of_lt hlt)
      rw [Nat.succ_mul] at hmul
      omega
    · rw [heq]
      omega
  | two l sep r =>
    obtain ⟨hlt, -⟩ := hfewer
    have hge := hroomy.inner_ge
    have hchild := grow_childFor t l r sep k
    have hfull : isFull p (⟨[sep], [l, r]⟩ : BTreeInner K (Node K V t.height)) = false :=
      not_isFull_of_lt (by change 1 < _; omega)
    have hdepth := fullDepth_le (p := p) (k := k) ((two l sep r).pick k)
    have hmul := Nat.mul_le_mul_right bound (Nat.succ_le_of_lt hlt)
    rw [Nat.succ_mul] at hmul
    dsimp only [grow]
    rw [fullCount_succ hfull hchild, fullDepth_succ hfull hchild]
    omega

structure Regrown (p : Params K) (k : K) (t t' : Tree K V) : Prop where
  wf : t'.WF p
  room : t'.root.splitFull p t'.height k = none
  leaves_eq : t'.leaves = t.leaves
  leafFor_eq : t'.root.leafFor t'.height k = t.root.leafFor t.height k
  links_eq : t'.links = t.links

-- Each descent that ends with a split leaves fewer full nodes on the way, or moves the first of
-- them up.
theorem splitPath_of_fuel (hroomy : p.Roomy) {fuel : Nat} (bound : Nat) (ht : t.WF p)
    (hfuel : fullCount p t.height t.root k * bound + fullDepth p t.height t.root k < fuel)
    (hbound : t.height + fullCount p t.height t.root k < bound) :
    ∃ t', splitPath p fuel t k = some t' ∧ Regrown p k t t' := by
  induction fuel generalizing t with
  | zero => exact absurd hfuel (Nat.not_lt_zero _)
  | succ fuel ih =>
    rw [splitPath]
    cases hsplit : t.root.splitFull p t.height k with
    | none => exact ⟨t, rfl, ht, hsplit, rfl, rfl, rfl⟩
    | some g =>
      have hwf : Node.WF p t.height none none t.root :=
        ⟨ht.1, ht.2 (height_ne_zero_of_splitFull hsplit)⟩
      obtain ⟨hfits, hleaves⟩ := splitFull_fits hroomy hwf (over_none k) (upTo_none k) hsplit
      obtain ⟨hfewer, hleaf⟩ := splitFull_fewer hroomy hwf (over_none k) (upTo_none k) hsplit
      obtain ⟨hgrow, hgrow_leaves⟩ := WF.grow hroomy hfits
      obtain ⟨hfuel', hbound'⟩ := grow_fewer hroomy hfewer hfuel hbound
      obtain ⟨t', hrun, hpath⟩ := ih hgrow hfuel' hbound'
      refine ⟨t', hrun, hpath.wf, hpath.room, ?_, ?_, ?_⟩
      · rw [hpath.leaves_eq, hgrow_leaves, hleaves]
        rfl
      · rw [hpath.leafFor_eq, grow_leafFor, hleaf]
      · rw [hpath.links_eq, grow_links]

theorem exists_splitPath (hroomy : p.Roomy) (ht : t.WF p) (k : K) :
    ∃ t', splitPath p t.restarts t k = some t' ∧ Regrown p k t t' := by
  have hcount := fullCount_le (p := p) (k := k) t.root
  have hdepth := fullDepth_le (p := p) (k := k) t.root
  have hmul := Nat.mul_le_mul_right (2 * t.height + 2) hcount
  refine splitPath_of_fuel hroomy (2 * t.height + 2) ht ?_ (by omega)
  have hrestarts : t.restarts = t.height * (2 * t.height + 2) + (2 * t.height + 2) :=
    Nat.succ_mul _ _
  omega

theorem exists_leaf (hroomy : p.Roomy) (ht : t.WF p) (k : K) :
    ∃ (l : BTreeLeaf K V) (lo hi : Option K) (ls₁ ls₂ : List (BTreeLeaf K V)),
      t.root.leafFor t.height k = some l ∧ Loose (V := V) p 0 lo hi l ∧ Over lo k ∧ UpTo hi k ∧
      Parted k (ls₁.flatMap BTreeLeaf.entries) (ls₂.flatMap BTreeLeaf.entries) ∧
      t.leaves = ls₁ ++ l :: ls₂ ∧
      (t.root.splitFull p t.height k = none → ∀ f : BTreeLeaf K V → Grown K (BTreeLeaf K V),
        Fits (V := V) p 0 lo hi (f l) →
        (t.grow (t.root.modifyLeaf f t.height k)).WF p ∧
        (t.grow (t.root.modifyLeaf f t.height k)).leaves
          = ls₁ ++ (Grown.leaves (V := V) (h := 0) (f l) ++ ls₂) ∧
        (t.grow (t.root.modifyLeaf f t.height k)).root.leafFor
          (t.grow (t.root.modifyLeaf f t.height k)).height k = some ((f l).pick k)) := by
  obtain ⟨l, lo, hi, ls₁, ls₂, hleaf, hl, hover, hupTo, hparted, hleaves, hmodify⟩ :=
    descend hroomy ht.1 ht.2 (over_none k) (upTo_none k)
  refine ⟨l, lo, hi, ls₁, ls₂, hleaf, hl, hover, hupTo, hparted, hleaves, fun hnone f hfits => ?_⟩
  obtain ⟨hfits', hleaves', hpick⟩ := hmodify hnone f hfits
  obtain ⟨hwf, hgrow⟩ := WF.grow hroomy hfits'
  exact ⟨hwf, hgrow.trans hleaves', by rw [grow_leafFor, hpick]⟩

theorem insertLeaf_spec (hroomy : p.Roomy) (ht : t.WF p)
    (hnone : t.root.splitFull p t.height k = none) :
    (t.insertLeaf p k v).1.WF p ∧
      InsertSpec k v t.entries (t.insertLeaf p k v).1.entries (t.insertLeaf p k v).2 := by
  obtain ⟨l, lo, hi, ls₁, ls₂, hleaf, hl, hover, hupTo, hparted, hleaves, hmodify⟩ :=
    exists_leaf hroomy ht k
  obtain ⟨hfits, hspec⟩ := BTreeLeaf.insertAt_spec (v := v) hroomy hl hover hupTo t.newId
  obtain ⟨hwf, hleaves', -⟩ := hmodify hnone _ hfits
  have hresult := hspec.append hparted
  have hentries' := congrArg (List.flatMap BTreeLeaf.entries) hleaves'
  rw [flatMap_append, flatMap_append] at hentries'
  rw [insertLeaf, hleaf, entries, hleaves, flatMap_append, flatMap_cons]
  dsimp only
  split
  · refine ⟨hwf, ?_⟩
    change InsertSpec k v _ (List.flatMap BTreeLeaf.entries (t.grow _).leaves) _
    rw [hentries']
    exact hresult
  · refine ⟨hwf, ?_⟩
    rw [entries, hentries']
    exact hresult

theorem insert_spec (hroomy : p.Roomy) (ht : t.WF p) (k : K) (v : V) :
    ∃ t' b, t.insert p k v = some (t', b) ∧ t'.WF p ∧
      InsertSpec k v t.entries t'.entries b := by
  obtain ⟨t₁, hpath, hre⟩ := exists_splitPath hroomy ht k
  obtain ⟨hwf, hspec⟩ := insertLeaf_spec (v := v) hroomy hre.wf hre.room
  rw [entries, hre.leaves_eq] at hspec
  exact ⟨_, _, by rw [insert, hpath]; rfl, hwf, hspec⟩

end Tree

end Tigon.BTreeOLC.BPlusTree
