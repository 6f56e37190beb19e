import Tigon.BTreeOLC.BPlusTree.Links
import Tigon.BTreeOLC.BPlusTree.Refinement

namespace Tigon.BTreeOLC.BPlusTree

open List Option Tree Tigon.Library
open Node

variable {K V : Type} [LinearOrder K]

def IsPred (m : K → Option V) (k : K) : Option (K × V) → Prop
  | none => ∀ x < k, m x = none
  | some (a, w) => a < k ∧ m a = some w ∧ ∀ x < k, m x ≠ none → x ≤ a

def IsSucc (m : K → Option V) (k : K) : Option (K × V) → Prop
  | none => ∀ x, k < x → m x = none
  | some (a, w) => k < a ∧ m a = some w ∧ ∀ x, k < x → m x ≠ none → a ≤ x

variable {p : Params K} {k : K} {es es₁ es₂ mid : List (K × V)}

section Entries

theorem lookup_of_mem (hsorted : es.Pairwise fun a b => a.1 < b.1) {x : K} {w : V}
    (hmem : (x, w) ∈ es) : es.lookup x = some w := by
  obtain ⟨l₁, l₂, rfl⟩ := append_of_mem hmem
  refine lookup_eq_some_iff.mpr ⟨l₁, l₂, rfl, fun e he => ?_⟩
  have hlt := (pairwise_append.mp hsorted).2.2 e he (x, w) mem_cons_self
  exact bne_iff_ne.mpr (ne_of_gt hlt)

theorem mem_of_lookup {x : K} (hne : es.lookup x ≠ none) : ∃ w, (x, w) ∈ es := by
  obtain ⟨w, hw⟩ := ne_none_iff_exists'.mp hne
  obtain ⟨l₁, l₂, rfl, -⟩ := lookup_eq_some_iff.mp hw
  exact ⟨w, by simp⟩

variable (hsorted : (es₁ ++ (mid ++ es₂)).Pairwise fun a b => a.1 < b.1)
  (hparted : Parted k es₁ es₂) (hmid : ∀ e ∈ mid, e.1 = k)

include hsorted hparted hmid

theorem isPred_getLast : IsPred (fun x => (es₁ ++ (mid ++ es₂)).lookup x) k es₁.getLast? := by
  have hfirst : ∀ x < k, (es₁ ++ (mid ++ es₂)).lookup x ≠ none → ∃ w, (x, w) ∈ es₁ := by
    intro x hx hne
    obtain ⟨w, hw⟩ := mem_of_lookup hne
    refine ⟨w, (mem_append.mp hw).resolve_right fun hw => ?_⟩
    rcases mem_append.mp hw with hw | hw
    · exact ne_of_lt hx (hmid _ hw)
    · exact lt_asymm hx (hparted.gt _ hw)
  cases hlast : es₁.getLast? with
  | none =>
    intro x hx
    by_contra hne
    obtain ⟨w, hw⟩ := hfirst x hx hne
    rw [List.getLast?_eq_none_iff.mp hlast] at hw
    cases hw
  | some e =>
    obtain ⟨fs, rfl⟩ := List.getLast?_eq_some_iff.mp hlast
    have hmem : e ∈ fs ++ [e] := mem_append_right fs mem_cons_self
    refine ⟨hparted.lt e hmem, lookup_of_mem hsorted (mem_append_left _ hmem), ?_⟩
    intro x hx hne
    obtain ⟨w, hw⟩ := hfirst x hx hne
    rcases mem_append.mp hw with hw | hw
    · have hpair := (pairwise_append.mp hsorted).1
      exact le_of_lt ((pairwise_append.mp hpair).2.2 (x, w) hw e mem_cons_self)
    · rw [← mem_singleton.mp hw]

theorem isSucc_head : IsSucc (fun x => (es₁ ++ (mid ++ es₂)).lookup x) k es₂.head? := by
  have hsecond : ∀ x, k < x → (es₁ ++ (mid ++ es₂)).lookup x ≠ none → ∃ w, (x, w) ∈ es₂ := by
    intro x hx hne
    obtain ⟨w, hw⟩ := mem_of_lookup hne
    refine ⟨w, ?_⟩
    rcases mem_append.mp hw with hw | hw
    · exact absurd (hparted.lt _ hw) (not_lt_of_gt hx)
    · exact (mem_append.mp hw).resolve_left fun hw => ne_of_gt hx (hmid _ hw)
  cases es₂ with
  | nil =>
    intro x hx
    by_contra hne
    obtain ⟨w, hw⟩ := hsecond x hx hne
    cases hw
  | cons e fs =>
    have hmem : e ∈ e :: fs := mem_cons_self
    refine ⟨hparted.gt e hmem, lookup_of_mem hsorted
      (mem_append_right _ (mem_append_right _ hmem)), ?_⟩
    intro x hx hne
    obtain ⟨w, hw⟩ := hsecond x hx hne
    rcases mem_cons.mp hw with rfl | hw
    · exact le_refl x
    · have hpair := (pairwise_append.mp (pairwise_append.mp hsorted).2.1).2.1
      exact le_of_lt ((pairwise_cons.mp hpair).1 (x, w) hw)

end Entries

namespace Tree

variable {t : Tree K V} {l : BTreeLeaf K V} {ls₁ ls₂ : List (BTreeLeaf K V)}

omit [LinearOrder K] in
theorem entriesAt_of_mem (hnodup : t.ids.Nodup) (hl : l ∈ t.leaves) :
    t.entriesAt l.id = l.entries := by
  obtain ⟨ls₁, ls₂, heq⟩ := append_of_mem hl
  have hfind : t.leaves.find? (fun m => m.id == l.id) = some l := by
    rw [ids, heq, map_append, map_cons, nodup_middle] at hnodup
    have hnot := (nodup_cons.mp hnodup).1
    rw [heq]
    refine List.find?_eq_some_iff_append.mpr ⟨beq_self_eq_true _, ls₁, ls₂, rfl, fun m hm => ?_⟩
    rw [Bool.not_eq_true', beq_eq_false_iff_ne]
    rintro hid
    exact hnot (mem_append_left _ (hid ▸ mem_map_of_mem hm))
  rw [leaves] at hfind
  simp only [entriesAt, hfind]

theorem leaves_nonempty {h : Nat} {n : Node K V h} {lo hi : Option K} (hn : Node.WF p h lo hi n)
    (hl : l ∈ n.leaves h) : l.entries ≠ [] := by
  induction h generalizing lo hi with
  | zero =>
    rw [mem_singleton.mp hl]
    exact ne_nil_of_length_pos hn.2
  | succ h ih =>
    obtain ⟨c, hc, hl⟩ := mem_flatMap.mp hl
    obtain ⟨lo', hi', hloose⟩ := hn.1.1.exists_bounds hc
    exact ih ⟨hloose, hn.1.2.1 c hc⟩ hl

theorem entries_ne_nil (ht : t.WF p) (htwo : 2 ≤ t.leaves.length) (hl : l ∈ t.leaves) :
    l.entries ≠ [] := by
  refine leaves_nonempty (p := p) ⟨ht.1, ht.2 fun hzero => ?_⟩ hl
  obtain ⟨height, root, newId, pre_, next_, retired⟩ := t
  subst hzero
  exact Nat.not_succ_le_self 1 htwo

section Tuples

variable {es₁ es₂ : List (K × V)} (ht : t.WF p) (hnodup : t.ids.Nodup)
  (hleaves : t.leaves = ls₁ ++ l :: ls₂) (hentries : l.entries = es₁ ++ es₂)

include ht hnodup hleaves hentries

theorem prevTuple_eq (hpre : t.pre_ l.id = (ls₁.map BTreeLeaf.id).getLast?) :
    t.prevTuple l es₁.length = (ls₁.flatMap BTreeLeaf.entries ++ es₁).getLast? := by
  rw [prevTuple, List.getLast?_append]
  rcases eq_nil_or_concat' es₁ with rfl | ⟨fs, e, rfl⟩
  · rw [if_neg (by simp), hpre]
    rcases eq_nil_or_concat' ls₁ with rfl | ⟨ms, m, rfl⟩
    · rfl
    · have hm : m ∈ t.leaves := by
        rw [hleaves]
        simp
      have hne : m.entries ≠ [] := by
        refine entries_ne_nil ht ?_ hm
        rw [hleaves]
        simp only [length_append, length_cons]
        omega
      obtain ⟨e, he⟩ := ne_none_iff_exists'.mp (mt List.getLast?_eq_none_iff.mp hne)
      have hid : ((ms ++ [m]).map BTreeLeaf.id).getLast? = some m.id := by
        rw [map_append]
        exact List.getLast?_concat
      rw [hid, bind_some, entriesAt_of_mem hnodup hm, flatMap_append,
        flatMap_singleton, List.getLast?_append, he]
      rfl
  · rw [hentries, length_append, length_singleton, if_pos (Nat.succ_pos _),
      Nat.add_sub_cancel, append_assoc, List.getElem?_append_right (Nat.le_refl _),
      Nat.sub_self, List.getLast?_concat]
    rfl

theorem nextTuple_eq (hnext : t.next_ l.id = (ls₂.map BTreeLeaf.id).head?) :
    t.nextTuple l es₁.length = (es₂ ++ ls₂.flatMap BTreeLeaf.entries).head? := by
  rw [nextTuple, hentries, length_append]
  cases es₂ with
  | nil =>
    rw [if_neg (by simp), hnext]
    cases ls₂ with
    | nil => rfl
    | cons m ms =>
      have hm : m ∈ t.leaves := by
        rw [hleaves]
        simp
      have hne : m.entries ≠ [] := by
        refine entries_ne_nil ht ?_ hm
        rw [hleaves]
        simp only [length_append, length_cons]
        omega
      obtain ⟨e, fs, he⟩ := exists_cons_of_ne_nil hne
      simp only [map_cons, List.head?_cons, bind_some, entriesAt_of_mem hnodup hm,
        flatMap_cons, he, nil_append, cons_append]
  | cons e fs =>
    rw [if_pos (by rw [length_cons]; omega), List.getElem?_append_right le_rfl,
      Nat.sub_self]
    rfl

end Tuples

def PreOk (t : Tree K V) (id : Nat) : Prop :=
  ∀ xs ys, t.ids = xs ++ id :: ys → t.pre_ id = xs.getLast?

omit [LinearOrder K] in
theorem PreLinked.preOk (hpre : t.PreLinked) (id : Nat) : t.PreOk id := by
  intro xs ys hids
  rw [PreLinked, hids, reverse_append, reverse_cons, append_assoc] at hpre
  exact hpre.next.trans List.head?_reverse

theorem adjacent_of_place {es₁ es₂ : List (K × V)} (mid : List (K × V)) (ht : t.WF p)
    (hlinks : t.Links)
    (hleaves : t.leaves = ls₁ ++ l :: ls₂)
    (hparted : Parted k (ls₁.flatMap BTreeLeaf.entries) (ls₂.flatMap BTreeLeaf.entries))
    (hparted' : Parted k es₁ es₂) (hentries : l.entries = es₁ ++ (mid ++ es₂))
    (hmid : ∀ e ∈ mid, e.1 = k) :
    IsSucc t.toMap k (t.nextTuple l (es₁ ++ mid).length) ∧
      (t.PreOk l.id → IsPred t.toMap k (t.prevTuple l es₁.length)) := by
  have happend : t.entries = (ls₁.flatMap BTreeLeaf.entries ++ es₁)
      ++ (mid ++ (es₂ ++ ls₂.flatMap BTreeLeaf.entries)) := by
    rw [entries, hleaves, flatMap_append, flatMap_cons, hentries]
    simp only [append_assoc]
  have hsorted : t.entries.Pairwise fun a b => a.1 < b.1 := ht.1.entries_sorted.1
  have hids : t.ids = ls₁.map BTreeLeaf.id ++ l.id :: ls₂.map BTreeLeaf.id := by
    rw [ids, hleaves, map_append, map_cons]
  have hnext : t.next_ l.id = (ls₂.map BTreeLeaf.id).head? := by
    have hlinked := hlinks.next
    rw [hids] at hlinked
    exact hlinked.next
  have hparts := hparted'.append hparted
  have hmap : t.toMap = fun x => t.entries.lookup x := rfl
  rw [hmap, happend]
  rw [happend] at hsorted
  refine ⟨?_, fun hpre => ?_⟩
  · rw [← append_assoc] at hentries
    rw [nextTuple_eq ht hlinks.nodup hleaves hentries hnext]
    exact isSucc_head hsorted hparts hmid
  · rw [prevTuple_eq ht hlinks.nodup hleaves hentries (hpre _ _ hids)]
    exact isPred_getLast hsorted hparts hmid

theorem lookupForNextKeyUpdate_spec (hroomy : p.Roomy) (ht : t.WF p) (hlinks : t.Links) {w : V}
    (hw : t.toMap k = some w) :
    ∃ adjacent, t.lookupForNextKeyUpdate k = some ((k, w), adjacent) ∧
      IsSucc t.toMap k adjacent.next ∧ (t.PreLinked → IsPred t.toMap k adjacent.prev) := by
  obtain ⟨l, lo, hi, ls₁, ls₂, hleaf, hl, -, -, hparted, hleaves, -⟩ := exists_leaf hroomy ht k
  have hlookup : l.entries.lookup k = some w := by
    rw [toMap, entries, hleaves, flatMap_append, flatMap_cons,
      hparted.lookup_append] at hw
    exact hw
  obtain ⟨es₁, es₂, hparted', hbound, ⟨hc, w', heq⟩ | ⟨hc, heq⟩⟩ := l.parts hl.1 k
  · have hvalue := hparted'.lookup_append [(k, w')]
    rw [singleton_append, ← heq, hlookup] at hvalue
    obtain rfl : w = w' := by simpa using hvalue
    obtain ⟨hnext, hprev⟩ := adjacent_of_place [(k, w)] ht hlinks hleaves hparted hparted'
      heq (by simp)
    refine ⟨⟨t.prevTuple l es₁.length, t.nextTuple l (es₁.length + 1)⟩, ?_, ?_, ?_⟩
    · rw [lookupForNextKeyUpdate, hleaf]
      dsimp only
      rw [if_pos hc, hbound, heq, List.getElem?_append_right le_rfl, Nat.sub_self]
      rfl
    · rw [length_append] at hnext
      exact hnext
    · exact fun hpre => hprev (hpre.preOk l.id)
  · have hnone := lookup_of_parted hparted'
    rw [← heq, hlookup] at hnone
    cases hnone

theorem insertBetween_spec (hroomy : p.Roomy) (ht : t.WF p) (hlinks : t.Links) (v : V)
    (processor : Adjacent K V → Bool) (hleaf : t.root.leafFor t.height k = some l)
    (habsent : t.toMap k = none) (hlarger : ∃ x, k < x ∧ t.toMap x ≠ none) :
    ∃ adjacent, (t.insertBetween k v processor l).2 = .called adjacent (processor adjacent) ∧
      IsSucc t.toMap k adjacent.next ∧ (t.PreOk l.id → IsPred t.toMap k adjacent.prev) := by
  obtain ⟨l', lo, hi, ls₁, ls₂, hleaf', hl, -, -, hparted, hleaves, -⟩ := exists_leaf hroomy ht k
  obtain rfl : l = l' := some.inj (hleaf.symm.trans hleaf')
  have hlookup : l.entries.lookup k = none := by
    rw [toMap, entries, hleaves, flatMap_append, flatMap_cons,
      hparted.lookup_append] at habsent
    exact habsent
  obtain ⟨es₁, es₂, hparted', hbound, ⟨hc, w, heq⟩ | ⟨hc, heq⟩⟩ := l.parts hl.1 k
  · have hvalue := hparted'.lookup_append [(k, w)]
    rw [singleton_append, ← heq, hlookup] at hvalue
    simp at hvalue
  · obtain ⟨hnext, hprev⟩ := adjacent_of_place [] ht hlinks hleaves hparted hparted'
      heq (forall_mem_nil _)
    rw [append_nil] at hnext
    cases htuple : t.nextTuple l es₁.length with
    | none =>
      obtain ⟨x, hx, hne⟩ := hlarger
      rw [htuple] at hnext
      exact absurd (hnext x hx) hne
    | some next =>
      rw [htuple] at hnext
      rw [insertBetween, if_neg (by simp [hc])]
      dsimp only
      rw [hbound, htuple]
      refine ⟨⟨t.prevTuple l es₁.length, some next⟩, ?_, hnext, hprev⟩
      dsimp only
      cases processor ⟨t.prevTuple l es₁.length, some next⟩ with
      | true | false => rfl

variable {t' : Tree K V}

theorem LeafSplit.entries_eq (hsplit : LeafSplit p k t t' l) : t'.entries = t.entries := by
  cases hsplit with
  | same hleaves hlinks => rw [entries, hleaves, entries]
  | split m ls₁ ls₂ hleaf hfull hleaves hleaves' hlinks htarget =>
    have hhalves : m.left.entries ++ (m.right t.newId).entries = m.entries :=
      take_append_drop ..
    rw [entries, entries, hleaves, hleaves', flatMap_append, flatMap_append,
      flatMap_cons, flatMap_cons, flatMap_cons, ← hhalves, append_assoc]

theorem LeafSplit.preOk (hsplit : LeafSplit p k t t' l) (hlinks : t.Links) (hpre : t.PreLinked) :
    t'.PreOk l.id := by
  have hnodup := (hsplit.splitStep.keeps_links hlinks).nodup
  cases hsplit with
  | same hleaves hlinks' =>
    obtain ⟨-, hpre', -, -⟩ := links_eq_iff.mp hlinks'
    have hids : t'.ids = t.ids := congrArg (List.map BTreeLeaf.id) hleaves
    intro xs ys heq
    rw [hpre']
    exact hpre.preOk l.id xs ys (hids ▸ heq)
  | split m ls₁ ls₂ hleaf hfull hleaves hleaves' hlinks' htarget =>
    obtain ⟨-, hpre', -, -⟩ := links_eq_iff.mp hlinks'
    have hids : t.ids = ls₁.map BTreeLeaf.id ++ m.id :: ls₂.map BTreeLeaf.id := by
      rw [ids, hleaves, map_append, map_cons]
    have hids' : t'.ids = ls₁.map BTreeLeaf.id ++ m.id :: t.newId :: ls₂.map BTreeLeaf.id := by
      rw [ids, hleaves', map_append, map_cons, map_cons]
      rfl
    have hold := hpre.preOk m.id _ _ hids
    have hne : m.id ≠ t.newId := by
      have hlt := hlinks.lt m.id (by rw [hids]; simp)
      exact ne_of_lt hlt
    have hunique : ∀ {i : Nat} {xs ys xs' ys' : List Nat}, t'.ids = xs ++ i :: ys →
        t'.ids = xs' ++ i :: ys' → xs = xs' := by
      intro i xs ys xs' ys' heq heq'
      have hnot : i ∉ xs ++ ys := by
        rw [heq, nodup_middle] at hnodup
        exact (nodup_cons.mp hnodup).1
      rw [heq] at heq'
      exact ((append_cons_inj_of_notMem (mt (mem_append_left ys) hnot)
        (mt (mem_append_right xs) hnot)).mp heq').1
    intro xs ys heq
    rw [hpre']
    rcases htarget with rfl | rfl
    · rw [hunique heq hids', linkSplit]
      dsimp only
      exact (Function.update_of_ne hne _ _).trans hold
    · rw [append_cons] at hids'
      rw [hunique heq hids', linkSplit]
      dsimp only
      rw [List.getLast?_concat]
      exact Function.update_self ..

theorem insertAdjacent_spec (hroomy : p.Roomy) (ht : t.WF p) (hlinks : t.Links) (v : V)
    (processor : Adjacent K V → Bool) (habsent : t.toMap k = none)
    (hlarger : ∃ x, k < x ∧ t.toMap x ≠ none) :
    ∃ adjacent, (t.insert_and_process_adjacent_tuples p k v processor).map Prod.snd
        = some (.called adjacent (processor adjacent)) ∧
      IsSucc t.toMap k adjacent.next ∧ (t.PreLinked → IsPred t.toMap k adjacent.prev) := by
  obtain ⟨t₁, l, heq, hroomed⟩ := insertAdjacent_eq hroomy ht k v processor
  have hlinks₁ := hroomed.leaves.splitStep.keeps_links hlinks
  have hmap : t₁.toMap = t.toMap := by
    unfold toMap
    rw [hroomed.leaves.entries_eq]
  obtain ⟨adjacent, hcall, hnext, hprev⟩ := insertBetween_spec hroomy hroomed.wf hlinks₁ v
    processor hroomed.leafFor_eq (hmap ▸ habsent) (hmap ▸ hlarger)
  rw [hmap] at hnext hprev
  exact ⟨adjacent, by rw [heq, map_some, hcall], hnext,
    fun hpre => hprev (hroomed.leaves.preOk hlinks hpre)⟩

instance (t : Tree K V) (k : K) : Decidable (t.SplitsLast p k) :=
  match hleaf : t.root.leafFor t.height k with
  | none => isTrue fun l hl => by rw [hleaf] at hl; cases hl
  | some l => decidable_of_iff (l.isFull p = true → t.next_ l.id = none)
    ⟨fun hlast m hm => some.inj (hleaf.symm.trans hm) ▸ hlast, fun hlast => hlast l hleaf⟩

instance (t : Tree K V) (op : Mutation K V) : Decidable (op.SplitsLast p t) :=
  match op with
  | .insert k _ => inferInstanceAs (Decidable (t.SplitsLast p k))
  | .insertAdjacent k _ _ => inferInstanceAs (Decidable (t.SplitsLast p k))
  | .remove _ => isTrue trivial
  | .removeAdjacent _ _ => isTrue trivial

-- Where only the last leaf was ever split, the processors are called with the neighbours of
-- the key. An insert is called at all if there is a larger key.
theorem adjacent_of_reach (hroomy : p.Roomy)
    (ht : Reach (mutate p) (fun t op => op.SplitsLast p t) empty t) (k : K) :
    (∀ w, t.toMap k = some w → ∃ adjacent,
      t.lookupForNextKeyUpdate k = some ((k, w), adjacent) ∧
      IsPred t.toMap k adjacent.prev ∧ IsSucc t.toMap k adjacent.next) ∧
    (∀ w processor, t.toMap k = some w → ∃ adjacent,
      (t.remove_and_process_adjacent_tuples p k processor).1 = some ((k, w), adjacent) ∧
      IsPred t.toMap k adjacent.prev ∧ IsSucc t.toMap k adjacent.next) ∧
    ∀ v processor, t.toMap k = none → (∃ x, k < x ∧ t.toMap x ≠ none) → ∃ adjacent,
      (t.insert_and_process_adjacent_tuples p k v processor).map Prod.snd
        = some (.called adjacent (processor adjacent)) ∧
      IsPred t.toMap k adjacent.prev ∧ IsSucc t.toMap k adjacent.next := by
  obtain ⟨hwf, hlinks⟩ := links_of_reach hroomy ht
  have hpre := preLinked_of_reach hroomy ht
  refine ⟨fun w hw => ?_, fun w processor hw => ?_, fun v processor habsent hlarger => ?_⟩
  · obtain ⟨adjacent, hlookup, hnext, hprev⟩ := lookupForNextKeyUpdate_spec hroomy hwf hlinks hw
    exact ⟨adjacent, hlookup, hprev hpre, hnext⟩
  · obtain ⟨adjacent, hlookup, hnext, hprev⟩ := lookupForNextKeyUpdate_spec hroomy hwf hlinks hw
    refine ⟨adjacent, ?_, hprev hpre, hnext⟩
    rw [remove_and_process_adjacent_tuples, hlookup]
  · obtain ⟨adjacent, hcall, hnext, hprev⟩ := insertAdjacent_spec hroomy hwf hlinks v processor
      habsent hlarger
    exact ⟨adjacent, hcall, hprev hpre, hnext⟩

theorem adjacent_of_ascending_inserts : ∃ t : Tree Nat Nat,
    Reach (mutate ⟨3, 5, 0⟩) (fun t op => op.SplitsLast ⟨3, 5, 0⟩ t) empty t ∧
    ∃ adjacent, t.lookupForNextKeyUpdate 20 = some ((20, 120), adjacent) ∧
      IsPred t.toMap 20 adjacent.prev ∧ IsSucc t.toMap 20 adjacent.next := by
  have hreach : ∃ t : Tree Nat Nat,
      Reach (mutate ⟨3, 5, 0⟩) (fun t op => op.SplitsLast ⟨3, 5, 0⟩ t) empty t ∧
      t.toMap 20 = some 120 := by
    exact exists_reach_of_run _ _ _
      ([10, 20, 30, 40].map fun k => .insert k (k + 100)) _ (by decide +kernel)
  obtain ⟨t, ht, hmap⟩ := hreach
  exact ⟨t, ht, (adjacent_of_reach ⟨by decide, by decide, by decide, by decide⟩ ht 20).1 120 hmap⟩

-- The leaf in front of the one of 30 is split, and the leaf of 30 still points to its left half,
-- [11]. The key 50 is larger than all others.
theorem stale_prev_leaf : ∃ t : Tree Nat Nat, Reach (mutate ⟨3, 5, 0⟩) (fun _ _ => True) empty t ∧
    t.lookupForNextKeyUpdate 30 = some ((30, 130), ⟨some (11, 111), some (40, 140)⟩) ∧
    t.toMap 20 = some 120 ∧
    (t.insert_and_process_adjacent_tuples ⟨3, 5, 0⟩ 50 150 fun _ => true).map Prod.snd
      = some .stuck :=
  exists_reach_of_run _ _ _
    ([10, 20, 30, 40, 11, 12, 13].map fun k => .insert k (k + 100)) _ (by decide +kernel)

end Tree

end Tigon.BTreeOLC.BPlusTree
