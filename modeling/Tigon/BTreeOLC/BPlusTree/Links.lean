import Tigon.BTreeOLC.BPlusTree.Adjacent
import Tigon.BTreeOLC.BPlusTree.Remove
import Tigon.Library.LinkedList
import Tigon.Library.Transition

namespace Tigon.BTreeOLC.BPlusTree

open List Option BTreeLeaf Tigon.Library Linked
open Node

variable {K V : Type} [LinearOrder K] {p : Params K} {k : K} {v : V}

namespace BTreeLeaf

variable {l : BTreeLeaf K V}

theorem insert_id (l : BTreeLeaf K V) (k : K) (v : V) : (l.insert k v).id = l.id := by
  rw [insert, apply_ite id, ite_self]

theorem insertAt_ids (p : Params K) (newId : Nat) (k : K) (v : V) (l : BTreeLeaf K V) :
    (Grown.leaves (V := V) (h := 0) (Tree.insertAt p newId k v l)).map id
      = if l.isFull p then [l.id, newId] else [l.id] := by
  rw [Tree.insertAt]
  split
  · split
    · change [l.left.id, ((l.right newId).insert k v).id] = _
      rw [insert_id]
      rfl
    · change [(l.left.insert k v).id, newId] = _
      rw [insert_id]
      rfl
  · change [(l.insert k v).id] = _
    rw [insert_id]

omit [LinearOrder K] in
theorem length_of_isFull (hfull : l.isFull p = true) : l.entries.length = p.leafMax := by
  simpa only [isFull, decide_eq_true_eq] using hfull

theorem split_pick_not_full (hroomy : p.Roomy) (hfull : l.isFull p = true) (newId : Nat) (k : K) :
    ((l.split p newId).pick k).isFull p = false := by
  have hge := hroomy.leaf_ge
  have hlength := length_of_isFull hfull
  rw [split, Grown.pick, isFull, decide_eq_false_iff_not]
  split
  · simp only [right, length_drop]
    omega
  · simp only [left, length_take]
    omega

end BTreeLeaf

namespace Tree

variable {t t' : Tree K V}

structure Links (t : Tree K V) : Prop where
  nodup : t.ids.Nodup
  lt : ∀ i ∈ t.ids, i < t.newId
  next : Linked t.next_ t.ids

def PreLinked (t : Tree K V) : Prop := Linked t.pre_ t.ids.reverse

section

omit [LinearOrder K]

theorem links_empty : (empty : Tree K V).Links ∧ (empty : Tree K V).PreLinked := by
  refine ⟨⟨nodup_singleton 0, ?_, rfl, trivial⟩, rfl, trivial⟩
  intro i hi
  rw [mem_singleton.mp hi]
  exact Nat.zero_lt_one

theorem links_eq_iff : t'.links = t.links ↔
    t'.newId = t.newId ∧ t'.pre_ = t.pre_ ∧ t'.next_ = t.next_ ∧ t'.retired = t.retired := by
  simp only [links, Prod.mk.injEq]

theorem linkSplit_links (l : BTreeLeaf K V) (hlinks : t'.links = t.links) :
    (t'.linkSplit l).links = (t.linkSplit l).links := by
  obtain ⟨hnew, hpre, hnext, hretired⟩ := links_eq_iff.mp hlinks
  simp only [linkSplit, links, hnew, hpre, hnext, hretired]

theorem linkMerge_links (pair : Option (BTreeLeaf K V × BTreeLeaf K V))
    (hlinks : t'.links = t.links) : (t'.linkMerge pair).links = (t.linkMerge pair).links := by
  obtain ⟨hnew, hpre, hnext, hretired⟩ := links_eq_iff.mp hlinks
  cases pair with
  | none => exact hlinks
  | some pair => simp only [linkMerge, links, hnew, hpre, hnext, hretired]

end

-- What an insert does to the row of leaves: the leaf of the key is split if it is full.
inductive SplitStep (p : Params K) (k : K) (t t' : Tree K V) : Prop
  | same (hids : t'.ids = t.ids) (hlinks : t'.links = t.links)
  | split (l : BTreeLeaf K V) (xs ys : List Nat) (hleaf : t.root.leafFor t.height k = some l)
      (hfull : l.isFull p = true) (hids : t.ids = xs ++ l.id :: ys)
      (hids' : t'.ids = xs ++ l.id :: t.newId :: ys) (hlinks : t'.links = (t.linkSplit l).links)

def SplitsLast (p : Params K) (t : Tree K V) (k : K) : Prop :=
  ∀ l ∈ t.root.leafFor t.height k, l.isFull p = true → t.next_ l.id = none

theorem SplitStep.keeps_links (hstep : SplitStep p k t t') (ht : t.Links) : t'.Links := by
  cases hstep with
  | same hids hlinks =>
    obtain ⟨hnew, -, hnext, -⟩ := links_eq_iff.mp hlinks
    obtain ⟨hnodup, hlt, hlinked⟩ := ht
    rw [← hids] at hnodup hlt hlinked
    exact ⟨hnodup, hnew ▸ hlt, hnext ▸ hlinked⟩
  | split l xs ys hleaf hfull hids hids' hlinks =>
    obtain ⟨hnew, -, hnext, -⟩ := links_eq_iff.mp hlinks
    obtain ⟨hnodup, hlt, hlinked⟩ := ht
    have hfresh : t.newId ∉ t.ids := fun hmem => Nat.lt_irrefl _ (hlt _ hmem)
    have hnextId : t.next_ l.id = ys.head? := by
      rw [hids] at hlinked
      exact hlinked.next
    have happend : t.ids = (xs ++ [l.id]) ++ ys := by rw [hids, append_assoc]; rfl
    have happend' : t'.ids = (xs ++ [l.id]) ++ t.newId :: ys := by
      rw [hids', append_assoc]
      rfl
    refine ⟨?_, ?_, ?_⟩
    · rw [happend', nodup_middle, ← happend]
      exact nodup_cons.mpr ⟨hfresh, hnodup⟩
    · intro i hi
      rw [happend', mem_append, mem_cons, or_left_comm, ← mem_append,
        ← happend] at hi
      rw [hnew]
      rcases hi with rfl | hi
      · exact Nat.lt_succ_self _
      · exact Nat.lt_succ_of_lt (hlt i hi)
    · rw [happend] at hlinked hnodup hfresh
      have hinsert := hlinked.insert hnodup hfresh
      rw [happend', hnext]
      simpa only [setLast, setTo, List.getLast?_concat, linkSplit, hnextId] using hinsert

theorem SplitStep.keeps_preLinked (hstep : SplitStep p k t t') (ht : t.Links) (hpre : t.PreLinked)
    (hlast : t.SplitsLast p k) : t'.PreLinked := by
  cases hstep with
  | same hids hlinks =>
    obtain ⟨-, hpre', -, -⟩ := links_eq_iff.mp hlinks
    rw [PreLinked, hids, hpre']
    exact hpre
  | split l xs ys hleaf hfull hids hids' hlinks =>
    obtain ⟨-, hpre', -, -⟩ := links_eq_iff.mp hlinks
    obtain ⟨hnodup, hlt, hlinked⟩ := ht
    have hfresh : t.newId ∉ t.ids := fun hmem => Nat.lt_irrefl _ (hlt _ hmem)
    have hys : ys = [] := by
      rw [hids] at hlinked
      exact List.head?_eq_none_iff.mp (hlinked.next.symm.trans (hlast l hleaf hfull))
    subst hys
    have hreverse : t.ids.reverse = l.id :: xs.reverse := by rw [hids]; simp
    have hreverse' : t'.ids.reverse = t.newId :: l.id :: xs.reverse := by rw [hids']; simp
    rw [PreLinked, hreverse] at hpre
    rw [PreLinked, hreverse', hpre']
    rw [← nodup_reverse, hreverse] at hnodup
    rw [← mem_reverse, hreverse] at hfresh
    have hlinked' : Linked t.pre_ ([] ++ l.id :: xs.reverse) := hpre
    exact hlinked'.insert hnodup hfresh

structure MergeStep (pair : Option (BTreeLeaf K V × BTreeLeaf K V)) (t t' : Tree K V) : Prop where
  ids_spec : LinkSpec t.ids t'.ids pair
  links_eq : t'.links = (t.linkMerge pair).links

omit [LinearOrder K] in
theorem MergeStep.keeps_links {pair : Option (BTreeLeaf K V × BTreeLeaf K V)}
    (hstep : MergeStep pair t t') (ht : t.Links) :
    t'.Links ∧ (t.PreLinked → t'.PreLinked) := by
  obtain ⟨hspec, hlinks⟩ := hstep
  obtain ⟨hnodup, hlt, hlinked⟩ := ht
  obtain ⟨hnew, hpre, hnext, -⟩ := links_eq_iff.mp hlinks
  cases pair with
  | none =>
    have hids : t'.ids = t.ids := hspec
    rw [PreLinked, PreLinked, hids, hpre]
    rw [← hids] at hnodup hlt hlinked
    exact ⟨⟨hnodup, hnew ▸ hlt, hnext ▸ hlinked⟩, fun hlinked' => hlinked'⟩
  | some pair =>
    obtain ⟨l, sibling⟩ := pair
    obtain ⟨xs, ys, hids, hids'⟩ := hspec
    have hnextId : t.next_ sibling.id = ys.head? := by
      rw [hids, append_cons] at hlinked
      exact hlinked.next
    have happend : t.ids = (xs ++ [l.id]) ++ sibling.id :: ys := by
      rw [hids, append_assoc]
      rfl
    have happend' : t'.ids = (xs ++ [l.id]) ++ ys := by rw [hids', append_assoc]; rfl
    refine ⟨⟨?_, ?_, ?_⟩, fun hlinked' => ?_⟩
    · rw [happend, nodup_middle, ← happend'] at hnodup
      exact (nodup_cons.mp hnodup).2
    · intro i hi
      rw [hnew]
      refine hlt i ?_
      rw [happend, mem_append, mem_cons, or_left_comm, ← mem_append, ← happend']
      exact .inr hi
    · rw [happend] at hlinked hnodup
      have herase := hlinked.erase hnodup
      rw [happend', hnext]
      simpa only [setLast, setTo, List.getLast?_concat, linkMerge, hnextId] using herase
    · have hreverse : t.ids.reverse = ys.reverse ++ sibling.id :: l.id :: xs.reverse := by
        rw [hids]
        simp
      have hreverse' : t'.ids.reverse = ys.reverse ++ l.id :: xs.reverse := by
        rw [hids']
        simp
      rw [PreLinked, hreverse] at hlinked'
      rw [← nodup_reverse, hreverse] at hnodup
      have hset : (t.linkMerge (some (l, sibling))).pre_
          = setLast t.pre_ ys.reverse (some l.id) := by
        simp only [setLast, setTo, List.getLast?_reverse, linkMerge, hnextId]
        cases ys.head? with
        | none | some next => rfl
      rw [PreLinked, hreverse', hpre, hset]
      exact hlinked'.erase hnodup

inductive LeafSplit (p : Params K) (k : K) (t t' : Tree K V) (target : BTreeLeaf K V) : Prop
  | same (hleaves : t'.leaves = t.leaves) (hlinks : t'.links = t.links)
  | split (l : BTreeLeaf K V) (ls₁ ls₂ : List (BTreeLeaf K V))
      (hleaf : t.root.leafFor t.height k = some l) (hfull : l.isFull p = true)
      (hleaves : t.leaves = ls₁ ++ l :: ls₂)
      (hleaves' : t'.leaves = ls₁ ++ l.left :: l.right t.newId :: ls₂)
      (hlinks : t'.links = (t.linkSplit l).links)
      (htarget : target = l.left ∨ target = l.right t.newId)

structure Roomed (p : Params K) (k : K) (t t' : Tree K V) (l : BTreeLeaf K V) : Prop where
  wf : t'.WF p
  room : t'.root.splitFull p t'.height k = none
  leafFor_eq : t'.root.leafFor t'.height k = some l
  not_full : l.isFull p = false
  leaves : LeafSplit p k t t' l

theorem insertAdjacent_eq (hroomy : p.Roomy) (ht : t.WF p) (k : K) (v : V)
    (processor : Adjacent K V → Bool) :
    ∃ t' l, t.insert_and_process_adjacent_tuples p k v processor
        = some (t'.insertBetween k v processor l) ∧ Roomed p k t t' l := by
  obtain ⟨t₁, hpath, hre⟩ := exists_splitPath hroomy ht k
  obtain ⟨l, lo, hi, ls₁, ls₂, hleaf, hl, -, -, -, hleaves, hmodify⟩ :=
    exists_leaf hroomy hre.wf k
  rw [insert_and_process_adjacent_tuples, insertAdjacentFrom, hpath, bind_some, hleaf,
    bind_some]
  cases hfull : l.isFull p with
  | false => exact ⟨t₁, l, rfl, hre.wf, hre.room, hleaf, hfull, .same hre.leaves_eq hre.links_eq⟩
  | true =>
    rw [if_pos rfl]
    have hfits := BTreeLeaf.split_fits hroomy hl hfull t₁.newId
    obtain ⟨hwf, hleaves', hpick⟩ := hmodify hre.room _ hfits
    have hwf₂ : (t₁.splitLeaf p k l).WF p := hwf
    obtain ⟨t₃, hpath', hre'⟩ := exists_splitPath hroomy hwf₂ k
    have hleaf' : t₃.root.leafFor t₃.height k = some ((l.split p t₁.newId).pick k) :=
      hre'.leafFor_eq.trans hpick
    have hhalf := split_pick_not_full hroomy hfull t₁.newId k
    obtain ⟨hnew, -, -, -⟩ := links_eq_iff.mp hre.links_eq
    refine ⟨t₃, _, ?_, hre'.wf, hre'.room, hleaf', hhalf,
      .split l ls₁ ls₂ (hre.leafFor_eq ▸ hleaf) hfull (hre.leaves_eq ▸ hleaves) ?_ ?_ ?_⟩
    · rw [insertAdjacentFrom, hpath', bind_some, hleaf', bind_some, hhalf]
      rfl
    · rw [hre'.leaves_eq, ← hnew]
      exact hleaves'
    · rw [hre'.links_eq]
      exact (linkSplit_links l (grow_links _)).trans (linkSplit_links l hre.links_eq)
    · rw [split, Grown.pick, hnew]
      split
      · exact .inr rfl
      · exact .inl rfl

theorem LeafSplit.splitStep {target : BTreeLeaf K V} (hsplit : LeafSplit p k t t' target) :
    SplitStep p k t t' := by
  cases hsplit with
  | same hleaves hlinks => exact .same (congrArg (List.map BTreeLeaf.id) hleaves) hlinks
  | split l ls₁ ls₂ hleaf hfull hleaves hleaves' hlinks _ =>
    refine .split l (ls₁.map BTreeLeaf.id) (ls₂.map BTreeLeaf.id) hleaf hfull ?_ ?_ hlinks
    · rw [ids, hleaves, map_append, map_cons]
    · rw [ids, hleaves', map_append, map_cons, map_cons]
      rfl

theorem insertBetween_keeps (hroomy : p.Roomy) (ht : t.WF p) (v : V)
    (processor : Adjacent K V → Bool) {l : BTreeLeaf K V}
    (hroom : t.root.splitFull p t.height k = none)
    (hleaf : t.root.leafFor t.height k = some l) (hfull : l.isFull p = false) :
    (t.insertBetween k v processor l).1.WF p ∧
      (t.insertBetween k v processor l).1.ids = t.ids ∧
      (t.insertBetween k v processor l).1.links = t.links := by
  obtain ⟨l', lo, hi, ls₁, ls₂, hleaf', hl, hover, hupTo, -, hleaves, hmodify⟩ :=
    exists_leaf hroomy ht k
  obtain rfl : l = l' := some.inj (hleaf.symm.trans hleaf')
  have hlength : l.entries.length < p.leafMax := by
    have hmax := hl.2.2
    rw [isFull, decide_eq_false_iff_not] at hfull
    omega
  have hfits := (BTreeLeaf.insert_spec (v := v) hroomy hl hover hupTo hlength).1
  obtain ⟨hwf, hleaves', -⟩ := hmodify hroom (fun l => .one (l.insert k v)) hfits
  rw [insertBetween]
  split
  · exact ⟨ht, rfl, rfl⟩
  · dsimp only
    split
    · exact ⟨ht, rfl, rfl⟩
    · split
      · refine ⟨hwf, ?_, grow_links _⟩
        rw [ids, ids, hleaves', hleaves, map_append, map_append, map_append,
          map_cons]
        change _ ++ ([(l.insert k v).id] ++ _) = _
        rw [insert_id]
        rfl
      · exact ⟨ht, rfl, rfl⟩

theorem insertAdjacent_step (hroomy : p.Roomy) (ht : t.WF p) {processor : Adjacent K V → Bool}
    {o : Inserted K V} (hinsert : t.insert_and_process_adjacent_tuples p k v processor =
      some (t', o)) :
    t'.WF p ∧ SplitStep p k t t' := by
  obtain ⟨t₁, l, heq, hroomed⟩ := insertAdjacent_eq hroomy ht k v processor
  obtain ⟨hwf, hids, hlinks⟩ := insertBetween_keeps hroomy hroomed.wf v processor hroomed.room
    hroomed.leafFor_eq hroomed.not_full
  obtain rfl : (t₁.insertBetween k v processor l).1 = t' :=
    congrArg Prod.fst (some.inj (heq.symm.trans hinsert))
  refine ⟨hwf, ?_⟩
  cases hroomed.leaves.splitStep with
  | same hids' hlinks' => exact .same (hids.trans hids') (hlinks.trans hlinks')
  | split l xs ys hleaf hfull hids' hids'' hlinks' =>
    exact .split l xs ys hleaf hfull hids' (hids.trans hids'') (hlinks.trans hlinks')

theorem insert_step (hroomy : p.Roomy) (ht : t.WF p) {b : Bool}
    (hinsert : t.insert p k v = some (t', b)) : t'.WF p ∧ SplitStep p k t t' := by
  obtain ⟨t₁, hpath, hre⟩ := exists_splitPath hroomy ht k
  obtain ⟨l, lo, hi, ls₁, ls₂, hleaf, hl, hover, hupTo, -, hleaves, hmodify⟩ :=
    exists_leaf hroomy hre.wf k
  have hfits := (insertAt_spec (v := v) hroomy hl hover hupTo t₁.newId).1
  obtain ⟨hwf, hleaves', -⟩ := hmodify hre.room _ hfits
  have hids' := congrArg (List.map BTreeLeaf.id) hleaves'
  rw [map_append, map_append, BTreeLeaf.insertAt_ids] at hids'
  have hids : t.ids = ls₁.map BTreeLeaf.id ++ l.id :: ls₂.map BTreeLeaf.id := by
    rw [ids, ← hre.leaves_eq, hleaves, map_append, map_cons]
  obtain ⟨hnew, -, -, -⟩ := links_eq_iff.mp hre.links_eq
  rw [insert, hpath, map_some, insertLeaf, hleaf] at hinsert
  obtain rfl := congrArg Prod.fst (some.inj hinsert)
  dsimp only
  cases hfull : l.isFull p with
  | false =>
    rw [hfull] at hids'
    exact ⟨hwf, .same (hids'.trans hids.symm) ((grow_links _).trans hre.links_eq)⟩
  | true =>
    rw [hfull] at hids'
    refine ⟨hwf, .split l _ _ (hre.leafFor_eq ▸ hleaf) hfull hids ?_ ?_⟩
    · rw [← hnew]
      exact hids'
    · rw [if_pos rfl]
      exact (linkSplit_links l (grow_links _)).trans (linkSplit_links l hre.links_eq)

theorem removeIf_step (hroomy : p.Roomy) (ht : t.WF p) (should_remove : Bool) (k : K) :
    (t.removeIf p should_remove k).1.WF p ∧
      MergeStep (t.root.remove p should_remove t.height k).leaves t
        (t.removeIf p should_remove k).1 := by
  obtain ⟨hwf, heffect⟩ := removeIf_spec hroomy ht should_remove k
  exact ⟨hwf, heffect.links, linkMerge_links _ (shrink_links t _)⟩

end Tree

def Mutation.SplitsLast (p : Params K) (t : Tree K V) : Mutation K V → Prop
  | .insert k _ | .insertAdjacent k _ _ => t.SplitsLast p k
  | .remove _ | .removeAdjacent _ _ => True

namespace Tree

variable {t t' : Tree K V}

theorem mutate_step (hroomy : p.Roomy) (ht : t.WF p) {op : Mutation K V}
    (hstep : t.mutate p op = some t') :
    t'.WF p ∧ ((∃ k, SplitStep p k t t' ∧ (op.SplitsLast p t → t.SplitsLast p k)) ∨
      ∃ pair, MergeStep pair t t') := by
  cases op with
  | insert k v =>
    obtain ⟨r, hinsert, rfl⟩ := map_eq_some_iff.mp hstep
    obtain ⟨hwf, hsplit⟩ := insert_step hroomy ht hinsert
    exact ⟨hwf, .inl ⟨k, hsplit, fun hlast => hlast⟩⟩
  | remove k =>
    obtain rfl := some.inj hstep
    obtain ⟨hwf, hmerge⟩ := removeIf_step hroomy ht true k
    exact ⟨hwf, .inr ⟨_, hmerge⟩⟩
  | insertAdjacent k v processor =>
    rw [mutate] at hstep
    split at hstep
    · cases hstep
    · cases hstep
    · rename_i t₁ o _ hinsert
      obtain rfl := some.inj hstep
      obtain ⟨hwf, hsplit⟩ := insertAdjacent_step hroomy ht hinsert
      exact ⟨hwf, .inl ⟨k, hsplit, fun hlast => hlast⟩⟩
  | removeAdjacent k processor =>
    obtain rfl := some.inj hstep
    rw [remove_and_process_adjacent_tuples]
    split
    · obtain ⟨hwf, hmerge⟩ := removeIf_step hroomy ht false k
      exact ⟨hwf, .inr ⟨_, hmerge⟩⟩
    · rename_i cur adjacent _
      obtain ⟨hwf, hmerge⟩ := removeIf_step hroomy ht (processor cur adjacent) k
      exact ⟨hwf, .inr ⟨_, hmerge⟩⟩

theorem links_of_reach (hroomy : p.Roomy) {ok : Tree K V → Mutation K V → Prop}
    (ht : Reach (mutate p) ok empty t) : t.WF p ∧ t.Links := by
  refine Reach.invariant (P := fun t => t.WF p ∧ t.Links) ⟨wf_empty p, links_empty.1⟩ ?_ ht
  rintro s op s' ⟨hwf, hlinks⟩ - hstep
  obtain ⟨hwf', ⟨k, hsplit, -⟩ | ⟨pair, hmerge⟩⟩ := mutate_step hroomy hwf hstep
  · exact ⟨hwf', hsplit.keeps_links hlinks⟩
  · exact ⟨hwf', (hmerge.keeps_links hlinks).1⟩

theorem preLinked_of_reach (hroomy : p.Roomy)
    (ht : Reach (mutate p) (fun t op => op.SplitsLast p t) empty t) : t.PreLinked := by
  have hinv : (t.WF p ∧ t.Links) ∧ t.PreLinked := by
    refine Reach.invariant (P := fun t => (t.WF p ∧ t.Links) ∧ t.PreLinked)
      ⟨⟨wf_empty p, links_empty.1⟩, links_empty.2⟩ ?_ ht
    rintro s op s' ⟨⟨hwf, hlinks⟩, hpre⟩ hlast hstep
    obtain ⟨hwf', ⟨k, hsplit, hlast'⟩ | ⟨pair, hmerge⟩⟩ := mutate_step hroomy hwf hstep
    · exact ⟨⟨hwf', hsplit.keeps_links hlinks⟩,
        hsplit.keeps_preLinked hlinks hpre (hlast' hlast)⟩
    · exact ⟨⟨hwf', (hmerge.keeps_links hlinks).1⟩, (hmerge.keeps_links hlinks).2 hpre⟩
  exact hinv.2

end Tree

end Tigon.BTreeOLC.BPlusTree
