import Tigon.BTreeOLC.BPlusTree.Neighbours

namespace Tigon.BTreeOLC.BPlusTree

open List Tigon.Library
open Node

variable {K V σ : Type}

-- What a scan calls its processor with: the tuples in turn and whether one is the last, until
-- the processor says that the scan ends.
def walk (processor : K → V → Bool → σ → σ × Bool) : List (K × V) → σ → σ × Bool
  | [], s => (s, false)
  | (k, v) :: rest, s =>
    match processor k v rest.isEmpty s with
    | (s, true) => (s, true)
    | (s, false) => walk processor rest s

theorem BTreeLeaf.drop_lowerBound [LinearOrder K] (l : BTreeLeaf K V)
    (hsorted : l.entries.Pairwise fun a b => a.1 < b.1) (k : K) :
    l.entries.drop (lowerBound l.keys k) = l.entries.filter fun e => k ≤ e.1 := by
  obtain ⟨es₁, es₂, hparted, hbound, hentries⟩ := l.parts hsorted k
  have hbefore : (es₁.filter fun e => k ≤ e.1) = [] :=
    filter_eq_nil_iff.mpr fun e he => by simpa using hparted.lt e he
  have hbehind : (es₂.filter fun e => k ≤ e.1) = es₂ :=
    filter_eq_self.mpr fun e he => by simpa using le_of_lt (hparted.gt e he)
  rcases hentries with ⟨-, v, heq⟩ | ⟨-, heq⟩
  · rw [hbound, heq, drop_left, filter_append, hbefore, nil_append,
      filter_cons_of_pos (by simp), hbehind]
  · rw [hbound, heq, drop_left, filter_append, hbefore, hbehind, nil_append]

namespace Tree

variable [LinearOrder K] (processor : K → V → Bool → σ → σ × Bool)

-- The loop over one leaf. None: its CHECK on the order of the keys fails.
def scanLeaf (lowKey : K) (lastLeaf : Bool) : List (K × V) → σ → Option (σ × Bool)
  | [], s => some (s, false)
  | (k, v) :: rest, s =>
    if k < lowKey then none
    else
      match processor k v (lastLeaf && rest.isEmpty) s with
      | (s, true) => some (s, true)
      | (s, false) => scanLeaf lowKey lastLeaf rest s

-- One descent for each leaf, by its first key. None: more descents than `fuel`.
def scanForUpdate : Nat → Tree K V → K → σ → Option σ
  | 0, _, _, _ => none
  | fuel + 1, t, lowKey, s =>
    (t.root.leafFor t.height lowKey).bind fun leaf =>
      let pos := lowerBound leaf.keys lowKey
      let nextLeaf := t.next_ leaf.id
      (scanLeaf processor lowKey nextLeaf.isNone (leaf.entries.drop pos) s).bind fun (s, quit) =>
        if quit then some s
        else
          match nextLeaf with
          | none => some s
          | some nextLeaf =>
            match (t.entriesAt nextLeaf).head? with
            | none => some s
            | some (lowKey, _) => scanForUpdate fuel t lowKey s

variable {processor} {p : Params K} {t : Tree K V} {k lowKey : K} {es rest : List (K × V)}
  {l : BTreeLeaf K V} {ls₁ ls₂ : List (BTreeLeaf K V)}

theorem scanLeaf_append (processor : K → V → Bool → σ → σ × Bool) (rest : List (K × V))
    (hlow : ∀ e ∈ es, lowKey ≤ e.1) (s : σ) :
    ∃ s' quit, scanLeaf processor lowKey rest.isEmpty es s = some (s', quit) ∧
      walk processor (es ++ rest) s = if quit then (s', true) else walk processor rest s' := by
  induction es generalizing s with
  | nil => exact ⟨s, false, rfl, rfl⟩
  | cons e es ih =>
    obtain ⟨k, v⟩ := e
    obtain ⟨hk, hes⟩ := forall_mem_cons.mp hlow
    have hlast : (es ++ rest).isEmpty = (rest.isEmpty && es.isEmpty) := by
      cases es <;> cases rest <;> rfl
    simp only [scanLeaf, if_neg (not_lt.mpr hk), cons_append, walk, hlast]
    generalize processor k v (rest.isEmpty && es.isEmpty) s = called
    obtain ⟨s', quit⟩ := called
    cases quit with
    | true => exact ⟨s', true, rfl, rfl⟩
    | false => exact ih hes s'

theorem leafFor_of_mem (hroomy : p.Roomy) (ht : t.WF p) (hleaves : t.leaves = ls₁ ++ l :: ls₂)
    (hmem : ∃ v, (k, v) ∈ l.entries) : t.root.leafFor t.height k = some l := by
  obtain ⟨l', lo, hi, ls₁', ls₂', hleaf, -, -, -, hparted, hleaves', -⟩ := exists_leaf hroomy ht k
  obtain ⟨v, hv⟩ := hmem
  have hl : l ∈ ls₁' ++ l' :: ls₂' := by
    rw [← hleaves', hleaves]
    simp
  rcases mem_append.mp hl with hl | hl
  · exact absurd (hparted.lt _ (mem_flatMap.mpr ⟨l, hl, hv⟩)) (lt_irrefl k)
  · rcases mem_cons.mp hl with rfl | hl
    · exact hleaf
    · exact absurd (hparted.gt _ (mem_flatMap.mpr ⟨l, hl, hv⟩)) (lt_irrefl k)

omit [LinearOrder K] in
theorem next_of_leaves (hlinks : t.Links) (hleaves : t.leaves = ls₁ ++ l :: ls₂) :
    t.next_ l.id = (ls₂.map BTreeLeaf.id).head? := by
  have hlinked := hlinks.next
  rw [ids, hleaves, map_append, map_cons] at hlinked
  exact hlinked.next

theorem sorted_of_mem (ht : t.WF p) (hl : l ∈ t.leaves) :
    l.entries.Pairwise fun a b => a.1 < b.1 := by
  obtain ⟨ls₁, ls₂, hleaves⟩ := append_of_mem hl
  have hsorted : t.entries.Pairwise fun a b => a.1 < b.1 := ht.1.entries_sorted.1
  rw [Tree.entries, hleaves, flatMap_append, flatMap_cons] at hsorted
  exact (pairwise_append.mp (pairwise_append.mp hsorted).2.1).1

theorem scanForUpdate_from (hroomy : p.Roomy) (ht : t.WF p) (hlinks : t.Links) {fuel : Nat}
    (hleaf : t.root.leafFor t.height lowKey = some l) (hleaves : t.leaves = ls₁ ++ l :: ls₂)
    (hfuel : ls₂.length < fuel) (s : σ) :
    scanForUpdate processor fuel t lowKey s = some (walk processor
      ((l.entries.filter fun e => lowKey ≤ e.1) ++ ls₂.flatMap BTreeLeaf.entries) s).1 := by
  induction ls₂ generalizing fuel lowKey l ls₁ s with
  | nil =>
    obtain ⟨fuel, rfl⟩ := Nat.exists_eq_succ_of_ne_zero (Nat.ne_of_gt hfuel)
    have hlow : ∀ e ∈ l.entries.filter (fun e => lowKey ≤ e.1), lowKey ≤ e.1 := by simp
    have hnext := next_of_leaves hlinks hleaves
    have hdrop := l.drop_lowerBound (sorted_of_mem ht (by simp [hleaves])) lowKey
    obtain ⟨s', quit, hscan, hwalk⟩ := scanLeaf_append processor [] hlow s
    simp only [scanForUpdate, hleaf, hnext, hdrop, Option.bind_some, map_nil,
      List.head?_nil, Option.isNone_none, flatMap_nil, hwalk]
    rw [isEmpty_nil] at hscan
    rw [hscan, Option.bind_some]
    cases quit <;> rfl
  | cons m ls₂ ih =>
    obtain ⟨fuel, rfl⟩ := Nat.exists_eq_succ_of_ne_zero (Nat.ne_of_gt (by omega : 0 < fuel))
    have hlow : ∀ e ∈ l.entries.filter (fun e => lowKey ≤ e.1), lowKey ≤ e.1 := by simp
    have hnext : t.next_ l.id = some m.id := next_of_leaves hlinks hleaves
    have hm : m ∈ t.leaves := by simp [hleaves]
    have hne : m.entries ≠ [] := by
      refine entries_ne_nil ht ?_ hm
      rw [hleaves]
      simp only [length_append, length_cons]
      omega
    obtain ⟨⟨lowKey', v⟩, es, hentries⟩ := exists_cons_of_ne_nil hne
    have hsorted := sorted_of_mem ht hm
    have hall : (m.entries.filter fun e => lowKey' ≤ e.1) = m.entries := by
      refine filter_eq_self.mpr fun e he => ?_
      rw [hentries] at hsorted he
      rcases mem_cons.mp he with rfl | he
      · simp
      · simpa using le_of_lt ((pairwise_cons.mp hsorted).1 e he)
    have hleaves' : t.leaves = (ls₁ ++ [l]) ++ m :: ls₂ := by rw [hleaves]; simp
    have hleaf' := leafFor_of_mem hroomy ht hleaves' (k := lowKey') ⟨v, by simp [hentries]⟩
    have hfuel' : ls₂.length < fuel := by rw [length_cons] at hfuel; omega
    have hrest := fun s => ih hleaf' hleaves' hfuel' s
    rw [hall] at hrest
    have hdrop := l.drop_lowerBound (sorted_of_mem ht (by simp [hleaves])) lowKey
    obtain ⟨s', quit, hscan, hwalk⟩ :=
      scanLeaf_append processor ((m :: ls₂).flatMap BTreeLeaf.entries) hlow s
    have hmore : ((m :: ls₂).flatMap BTreeLeaf.entries).isEmpty = false := by simp [hentries]
    rw [hmore] at hscan
    simp only [scanForUpdate, hleaf, hnext, hdrop, Option.bind_some, Option.isNone_some, hscan,
      hwalk, entriesAt_of_mem hlinks.nodup hm, hentries, List.head?_cons]
    cases quit with
    | true => rfl
    | false => exact hrest s'

theorem scanForUpdate_eq_walk (hroomy : p.Roomy) (ht : t.WF p) (hlinks : t.Links) {fuel : Nat}
    (hfuel : t.leaves.length ≤ fuel) (k : K) (s : σ) :
    scanForUpdate processor fuel t k s
      = some (walk processor (t.entries.filter fun e => k ≤ e.1) s).1 := by
  obtain ⟨l, lo, hi, ls₁, ls₂, hleaf, -, -, -, hparted, hleaves, -⟩ := exists_leaf hroomy ht k
  have hlt : ls₂.length < fuel := by
    rw [hleaves, length_append, length_cons] at hfuel
    omega
  rw [scanForUpdate_from hroomy ht hlinks hleaf hleaves hlt]
  have hbefore : ((ls₁.flatMap BTreeLeaf.entries).filter fun e => k ≤ e.1) = [] :=
    filter_eq_nil_iff.mpr fun e he => by simpa using hparted.lt e he
  have hbehind : ((ls₂.flatMap BTreeLeaf.entries).filter fun e => k ≤ e.1)
      = ls₂.flatMap BTreeLeaf.entries :=
    filter_eq_self.mpr fun e he => by simpa using le_of_lt (hparted.gt e he)
  rw [Tree.entries, hleaves, flatMap_append, flatMap_cons, filter_append,
    filter_append, hbefore, hbehind, nil_append]

end Tree

section Calls

structure Call (K V : Type) where
  key : K
  value : V
  last : Bool
  quit : Bool

variable {m : K → Option V} {low : K} {es : List (K × V)} {calls : List (Call K V)}

def Call.tuple (c : Call K V) : K × V := (c.key, c.value)

def traced (processor : K → V → Bool → σ → σ × Bool) (k : K) (v : V) (last : Bool)
    (s : List (Call K V) × σ) : (List (Call K V) × σ) × Bool :=
  let (s', quit) := processor k v last s.2
  ((s.1 ++ [⟨k, v, last, quit⟩], s'), quit)

inductive Answered : List (K × V) → List (Call K V) → Prop
  | nil : Answered [] []
  | quit (k : K) (v : V) (rest : List (K × V)) :
      Answered ((k, v) :: rest) [⟨k, v, rest.isEmpty, true⟩]
  | next (k : K) (v : V) {rest : List (K × V)} {calls : List (Call K V)} :
      Answered rest calls → Answered ((k, v) :: rest) (⟨k, v, rest.isEmpty, false⟩ :: calls)

theorem walk_traced (processor : K → V → Bool → σ → σ × Bool) (es : List (K × V))
    (before : List (Call K V)) (s : σ) :
    ∃ calls, Answered es calls ∧
      (walk (traced processor) es (before, s)).1 = (before ++ calls, (walk processor es s).1) := by
  induction es generalizing before s with
  | nil => exact ⟨[], .nil, by simp [walk]⟩
  | cons e rest ih =>
    obtain ⟨k, v⟩ := e
    simp only [walk, traced]
    generalize processor k v rest.isEmpty s = called
    obtain ⟨s', quit⟩ := called
    cases quit with
    | true => exact ⟨_, .quit k v rest, rfl⟩
    | false =>
      obtain ⟨calls, hcalls, hwalk⟩ := ih (before ++ [⟨k, v, rest.isEmpty, false⟩]) s'
      exact ⟨_, .next k v hcalls, by simpa using hwalk⟩

theorem Answered.isPrefix (h : Answered es calls) : calls.map Call.tuple <+: es := by
  induction h with
  | nil => exact nil_prefix
  | quit k v rest => exact ⟨rest, rfl⟩
  | next k v _ ih => exact cons_prefix_cons.mpr ⟨rfl, ih⟩

theorem Answered.eq_of_not_quit (h : Answered es calls) (hquit : ∀ c ∈ calls, c.quit = false) :
    calls.map Call.tuple = es := by
  induction h with
  | nil => rfl
  | quit k v rest => cases hquit _ mem_cons_self
  | next k v _ ih =>
    rw [map_cons, ih (forall_mem_cons.mp hquit).2]
    rfl

theorem Answered.quit_of_dropLast (h : Answered es calls) :
    ∀ c ∈ calls.dropLast, c.quit = false := by
  induction h with
  | nil | quit k v rest => simp
  | @next k v rest calls _ ih =>
    cases calls with
    | nil => simp
    | cons c calls =>
      rw [dropLast_cons_cons]
      exact forall_mem_cons.mpr ⟨rfl, ih⟩

variable [LinearOrder K]

theorem Answered.last_iff (h : Answered es calls)
    (hsorted : es.Pairwise fun a b => a.1 < b.1) :
    ∀ c ∈ calls, (c.last = true ↔ ∀ e ∈ es, e.1 ≤ c.key) := by
  have hhead : ∀ (k : K) (v : V) (rest : List (K × V)), (∀ e ∈ rest, k < e.1) →
      (rest.isEmpty = true ↔ ∀ e ∈ (k, v) :: rest, e.1 ≤ k) := by
    intro k v rest hlt
    cases rest with
    | nil => simp
    | cons e rest =>
      refine iff_of_false Bool.false_ne_true fun hle => ?_
      exact absurd (hlt e mem_cons_self) (not_lt.mpr (hle e (by simp)))
  induction h with
  | nil => simp
  | quit k v rest =>
    intro c hc
    rw [mem_singleton.mp hc]
    exact hhead k v rest (pairwise_cons.mp hsorted).1
  | @next k v rest calls hrest ih =>
    obtain ⟨hlt, hsorted⟩ := pairwise_cons.mp hsorted
    refine forall_mem_cons.mpr ⟨hhead k v rest hlt, fun c hc => ?_⟩
    have hmem := hrest.isPrefix.subset (mem_map_of_mem hc)
    rw [ih hsorted c hc, forall_mem_cons]
    exact ⟨fun hle => ⟨le_of_lt (hlt _ hmem), hle⟩, And.right⟩

-- The calls of a scan from `low` on: the keys in ascending order without a gap, up to the first
-- call that returns true.
structure Visits (m : K → Option V) (low : K) (calls : List (Call K V)) : Prop where
  ascending : calls.Pairwise fun a b => a.key < b.key
  stored : ∀ c ∈ calls, low ≤ c.key ∧ m c.key = some c.value
  no_gap : ∀ c ∈ calls, ∀ x, low ≤ x → x ≤ c.key → m x ≠ none → x ∈ calls.map Call.key
  goes_on : ∀ c ∈ calls.dropLast, c.quit = false
  complete : (∀ c ∈ calls, c.quit = false) →
    ∀ x, low ≤ x → m x ≠ none → x ∈ calls.map Call.key
  last : ∀ c ∈ calls, (c.last = true ↔ ∀ x, m x ≠ none → x ≤ c.key)

theorem Answered.visits (h : Answered (es.filter fun e => low ≤ e.1) calls)
    (hsorted : es.Pairwise fun a b => a.1 < b.1) : Visits (fun x => es.lookup x) low calls := by
  have hfrom := hsorted.filter fun e => low ≤ e.1
  have hmem : ∀ c ∈ calls, low ≤ c.key ∧ c.tuple ∈ es := by
    intro c hc
    have hes := mem_filter.mp (h.isPrefix.subset (mem_map_of_mem hc))
    exact ⟨of_decide_eq_true hes.2, hes.1⟩
  have hkeys : calls.map Call.key = (calls.map Call.tuple).map Prod.fst := by
    rw [map_map]
    rfl
  have hfound : ∀ x, low ≤ x → es.lookup x ≠ none → ∃ w, (x, w) ∈ es.filter fun e => low ≤ e.1 := by
    intro x hlow hne
    obtain ⟨w, hw⟩ := mem_of_lookup hne
    exact ⟨w, mem_filter.mpr ⟨hw, decide_eq_true hlow⟩⟩
  refine ⟨?_, fun c hc => ⟨(hmem c hc).1, lookup_of_mem hsorted (hmem c hc).2⟩, ?_,
    h.quit_of_dropLast, ?_, ?_⟩
  · have hpairs := hfrom.sublist h.isPrefix.sublist
    rw [pairwise_map] at hpairs
    exact hpairs
  · intro c hc x hlow hle hne
    obtain ⟨w, hw⟩ := hfound x hlow hne
    obtain ⟨rest, hes⟩ := h.isPrefix
    rw [← hes] at hw hfrom
    rcases mem_append.mp hw with hw | hw
    · rw [hkeys]
      exact mem_map_of_mem hw
    · have hlt := (pairwise_append.mp hfrom).2.2 c.tuple (mem_map_of_mem hc) _ hw
      exact absurd hlt (not_lt.mpr hle)
  · intro hquit x hlow hne
    obtain ⟨w, hw⟩ := hfound x hlow hne
    rw [hkeys, h.eq_of_not_quit hquit]
    exact mem_map_of_mem hw
  · intro c hc
    rw [h.last_iff hfrom c hc]
    constructor
    · intro hle x hne
      rcases le_or_gt low x with hlow | hlow
      · obtain ⟨w, hw⟩ := hfound x hlow hne
        exact hle _ hw
      · exact le_of_lt (lt_of_lt_of_le hlow (hmem c hc).1)
    · intro hle e he
      refine hle e.1 ?_
      rw [lookup_of_mem hsorted (mem_of_mem_filter he)]
      exact Option.some_ne_none _

end Calls

namespace Tree

variable [LinearOrder K] {p : Params K} {t : Tree K V}

theorem scanForUpdate_visits (hroomy : p.Roomy)
    (hreach : Reach (mutate p) (fun _ _ => True) empty t) (startKey : K)
    (processor : K → V → Bool → σ → σ × Bool) (s : σ) :
    ∃ calls s', Visits t.toMap startKey calls ∧ ∀ fuel, t.leaves.length ≤ fuel →
      scanForUpdate (traced processor) fuel t startKey ([], s) = some (calls, s') ∧
      scanForUpdate processor fuel t startKey s = some s' := by
  obtain ⟨ht, hlinks⟩ := links_of_reach hroomy hreach
  have hwalks : ∀ {τ : Type} (processor : K → V → Bool → τ → τ × Bool) (s : τ) fuel,
      t.leaves.length ≤ fuel → scanForUpdate processor fuel t startKey s
        = some (walk processor (t.entries.filter fun e => startKey ≤ e.1) s).1 :=
    fun _ s _ hfuel => scanForUpdate_eq_walk hroomy ht hlinks hfuel startKey s
  obtain ⟨calls, hcalls, hwalk⟩ :=
    walk_traced processor (t.entries.filter fun e => startKey ≤ e.1) [] s
  rw [nil_append] at hwalk
  refine ⟨calls, (walk processor (t.entries.filter fun e => startKey ≤ e.1) s).1,
    hcalls.visits ht.1.entries_sorted.1, fun fuel hfuel => ⟨?_, hwalks processor s fuel hfuel⟩⟩
  rw [hwalks (traced processor) ([], s) fuel hfuel, hwalk]

theorem scanForUpdate_visits_after_merges :
    ∃ t : Tree Nat Nat, Reach (mutate ⟨3, 5, 0⟩) (fun _ _ => True) empty t ∧
      ∃ calls s', Visits t.toMap 5 calls ∧ ∀ fuel, t.leaves.length ≤ fuel →
        scanForUpdate (traced fun k _ _ sum => (sum + k, sum > 10)) fuel t 5 ([], 0)
          = some (calls, s') ∧
        scanForUpdate (fun k _ _ sum => (sum + k, sum > 10)) fuel t 5 0 = some s' := by
  obtain ⟨t, hreach, -⟩ := exists_reach_of_run (mutate ⟨3, 5, 0⟩) (fun _ _ => True)
    (empty : Tree Nat Nat)
    (([1, 2, 3, 4, 5, 6, 7, 8].map fun k => .insert k (k + 100)) ++ [.remove 1, .remove 2])
    (fun _ => True) (by decide +kernel)
  exact ⟨t, hreach,
    scanForUpdate_visits ⟨by decide, by decide, by decide, by decide⟩ hreach 5 _ 0⟩

-- The descent for a key ends at an empty leaf in front of the leaf of this key.
theorem scanForUpdate_of_empty_leaf {processor : K → V → Bool → σ → σ × Bool} {k : K} {v : V}
    {id next : Nat} (hleaf : t.root.leafFor t.height k = some ⟨id, []⟩)
    (hnext : t.next_ id = some next) (hhead : (t.entriesAt next).head? = some (k, v))
    (fuel : Nat) (s : σ) : scanForUpdate processor fuel t k s = none := by
  induction fuel with
  | zero => rfl
  | succ fuel ih =>
    rw [scanForUpdate, hleaf]
    simp only [Option.bind_some, hnext, drop_nil, scanLeaf, hhead]
    exact ih

theorem scanForUpdate_without_end :
    ∃ t : Tree Nat Nat, Reach (mutate ⟨3, 4, 93824992292864⟩) (fun _ _ => True) empty t ∧
      t.toMap 2 = some 102 ∧
      ∀ (processor : Nat → Nat → Bool → Unit → Unit × Bool) fuel,
        scanForUpdate processor fuel t 2 () = none := by
  obtain ⟨t, hreach, hmap, hleaf, hentries⟩ :=
    exists_reach_of_run (mutate ⟨3, 4, 93824992292864⟩) (fun _ _ => True) (empty : Tree Nat Nat)
      (([1, 2, 3, 4, 5, 6, 7, 8].map fun k => .insert k (k + 100)) ++ [.remove 1])
      (fun t => t.toMap 2 = some 102 ∧ t.root.leafFor t.height 2 = some ⟨0, []⟩ ∧
        (t.next_ 0).map (fun id => (t.entriesAt id).head?) = some (some (2, 102)))
      (by decide +kernel)
  obtain ⟨next, hnext, hhead⟩ := Option.map_eq_some_iff.mp hentries
  exact ⟨t, hreach, hmap, fun _ fuel => scanForUpdate_of_empty_leaf hleaf hnext hhead fuel ()⟩

end Tree

end Tigon.BTreeOLC.BPlusTree
