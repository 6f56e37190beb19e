import Tigon.BTreeOLC.Leaves.Lemmas
import Tigon.TwoPLPasha.InsertSystem.Guards
import Tigon.TwoPLPasha.LocalScan

namespace Tigon.TwoPLPasha

open List Option Table LocalScan ScanArgs InsertSystem Tigon.Library
open Tigon.BTreeOLC (BTreeLeaf locate nextKey prevKey insertKey splitLeaf contents Ordered Locates)

namespace LocalScan

variable {K α : Type} [LinearOrder K] {host : Host} {args : ScanArgs K} {t : Table K α}
  {scan : LocalScan K} {pending : List K} {lowKey : K} {leaf : BTreeLeaf K} {key : K}

-- A scan on its way through the tuples of a leaf: it holds the rows it has found, and what
-- it has not found yet is still to come in the leaf or lies beyond it.
structure Walking (args : ScanArgs K) (pending : List K) (t : Table K α) (scan : LocalScan K) :
    Prop where
  wellFormed : t.WellFormed
  guarded : Guards args.type.kind args.min_key t.keys t.lock pending scan.scan_results
  within : args.Within scan.scan_results

def Remaining (args : ScanArgs K) (lowKey : K) (leaf : BTreeLeaf K) (keys : Finset K)
    (rest results : List K) : Prop :=
  ∀ k ∈ keys, args.min_key ≤ k → k ∉ results →
    k ∈ rest ∨ k ∉ leaf.keys ∧ lowKey ≤ k ∧ ∀ x ∈ leaf.keys, x < k

structure Found (args : ScanArgs K) (pending : List K) (t : Table K α) (results : List K)
    (next : K) : Prop where
  guarded : Guards args.type.kind args.min_key t.keys t.lock pending (results ++ [next])
  within : args.Within results
  stops : args.StopsAt results next

inductive Ends (args : ScanArgs K) (pending : List K) (t : Table K α) (scan : LocalScan K) : Prop
  | success (next : K) (hphase : scan.phase = .returned true)
      (hnext : scan.next_row_entity = some next)
      (hfound : Found args pending t scan.scan_results next) : Ends args pending t scan
  | failure (hphase : scan.phase = .returned false) : Ends args pending t scan

theorem mem_of_skips (hw : Walking args pending t scan)
    (hskip : args.skips scan.scan_results key = true) (hkey : key ∈ t.keys)
    (hmin : args.min_key ≤ key) : key ∈ scan.scan_results := by
  rw [skips, if_pos hmin, Option.any_eq_true] at hskip
  obtain ⟨c, hc, hle⟩ := hskip
  exact hw.guarded.covers key hkey hmin c (mem_of_getLast? hc) (by simpa using hle)

theorem of_not_skips (hw : Walking args pending t scan)
    (hskip : args.skips scan.scan_results key = false) :
    args.min_key ≤ key ∧ ∀ k ∈ scan.scan_results, k < key := by
  rw [skips] at hskip
  split at hskip
  · rename_i hmin
    refine ⟨hmin, hw.guarded.lt_of_last fun c hc => ?_⟩
    have hc' : scan.scan_results.getLast? = some c := hc
    rw [hc'] at hskip
    simpa using hskip
  · cases hskip

variable {rest : List K}

theorem guards_localLock (hw : Walking args pending t scan)
    (hskip : args.skips scan.scan_results key = false) (hkey : key ∈ t.keys)
    (hleaf : key ∈ leaf.keys) (hrest : ∀ x ∈ rest, key < x)
    (hremaining : Remaining args lowKey leaf t.keys (key :: rest) scan.scan_results)
    (hok : (RowState.localLock args.type.kind false (t.row key) host).success = true) :
    Guards args.type.kind args.min_key t.keys
      (t.onRow key fun _ => (RowState.localLock args.type.kind false (t.row key) host).row).lock
      pending (scan.scan_results ++ [key]) := by
  obtain ⟨hmin, hafter⟩ := of_not_skips hw hskip
  obtain ⟨-, -, hyes, -⟩ := presence_localLock (hw.wellFormed.row key) args.type.kind false host
  obtain ⟨hfree, hpresence⟩ := hyes hok
  have hgap : ∀ k ∈ t.keys, args.min_key ≤ k → k < key → k ∈ scan.scan_results := by
    intro k hk hmk hlt
    by_contra hnot
    rcases hremaining k hk hmk hnot with hmem | ⟨-, -, hbeyond⟩
    · rcases mem_cons.mp hmem with rfl | hmem
      · exact lt_irrefl k hlt
      · exact lt_asymm hlt (hrest k hmem)
    · exact lt_asymm hlt (hbeyond key hleaf)
  refine Guards.extend hw.guarded hkey hmin hafter hgap hfree ?_ fun k hk => ?_
  · rw [lock, info_onRow, Function.update_self, hpresence]
    rfl
  · rw [lock, info_onRow, Function.update_of_ne hk]
    rfl

theorem stopsAt_of_last_tuple (hw : Walking args pending t scan)
    (hskip : args.skips scan.scan_results key = false)
    (hmax : ∃ k ∈ t.keys, args.max_key < k)
    (hlast : ∀ k ∈ t.keys, lowKey ≤ k → k ∈ leaf.keys)
    (hremaining : Remaining args lowKey leaf t.keys [key] scan.scan_results) :
    args.StopsAt scan.scan_results key := by
  obtain ⟨k, hk, hlt⟩ := hmax
  refine .inl ?_
  rcases lt_or_ge k args.min_key with hkm | hmin
  · exact hlt.trans (hkm.trans_le (of_not_skips hw hskip).1)
  have hnot : k ∉ scan.scan_results := fun hmem =>
    absurd (hw.within.max_key k hmem) (not_le.mpr hlt)
  rcases hremaining k hk hmin hnot with hmem | ⟨hleaf, hlow, -⟩
  · rw [← mem_singleton.mp hmem]
    exact hlt
  · exact absurd (hlast k hk hlow) hleaf

structure Ahead (args : ScanArgs K) (lowKey : K) (leaf : BTreeLeaf K) (last_leaf : Bool)
    (keys : Finset K)
    (rest results : List K) : Prop where
  sorted : rest.Pairwise (· < ·)
  in_leaf : ∀ x ∈ rest, x ∈ leaf.keys
  mem : ∀ x ∈ rest, x ∈ keys
  last : last_leaf = true → ∀ k ∈ keys, lowKey ≤ k → k ∈ leaf.keys
  remaining : Remaining args lowKey leaf keys rest results

variable {last_leaf : Bool}

theorem Ahead.tail {keys : Finset K} {results results' : List K}
    (h : Ahead args lowKey leaf last_leaf keys (key :: rest) results)
    (hresults : ∀ k, k ∉ results' → k ∉ results ∧ (k = key → ¬ args.min_key ≤ k)) :
    Ahead args lowKey leaf last_leaf keys rest results' where
  sorted := (pairwise_cons.mp h.sorted).2
  in_leaf := fun x hx => h.in_leaf x (mem_cons_of_mem key hx)
  mem := fun x hx => h.mem x (mem_cons_of_mem key hx)
  last := h.last
  remaining := by
    intro k hk hmin hnot
    obtain ⟨hnot, hkey⟩ := hresults k hnot
    rcases h.remaining k hk hmin hnot with hmem | hbeyond
    · rcases mem_cons.mp hmem with heq | hmem
      · exact absurd hmin (hkey heq)
      · exact .inl hmem
    · exact .inr hbeyond

structure Handles (args : ScanArgs K) (lowKey : K) (leaf : BTreeLeaf K) (last_leaf : Bool)
    (pending rest : List K) (t : Table K α) (scan : LocalScan K)
    (res : Table K α × LocalScan K × Bool) : Prop where
  keys : res.1.keys = t.keys
  goes_on : res.2.2 = false → Walking args pending res.1 res.2.1 ∧
    Ahead args lowKey leaf last_leaf t.keys rest res.2.1.scan_results ∧
    res.2.1.next_row_entity = scan.next_row_entity
  ends : res.2.2 = true → res.1.WellFormed ∧ Ends args pending res.1 res.2.1

theorem handles_processor (host : Host) (hw : Walking args pending t scan)
    (hmax : ∃ k ∈ t.keys, args.max_key < k)
    (hahead : Ahead args lowKey leaf last_leaf t.keys (key :: rest) scan.scan_results) :
    Handles args lowKey leaf last_leaf pending rest t scan
      (local_scan_processor host args key (last_leaf && rest.isEmpty) t scan) := by
  have hkey : key ∈ t.keys := hahead.mem key mem_cons_self
  have hleaf : key ∈ leaf.keys := hahead.in_leaf key mem_cons_self
  rw [local_scan_processor]
  cases hskip : args.skips scan.scan_results key with
  | true =>
    rw [if_pos rfl]
    refine ⟨rfl, fun _ => ⟨hw, hahead.tail fun k hk => ⟨hk, ?_⟩, rfl⟩, nofun⟩
    rintro rfl hmin
    exact hk (mem_of_skips hw hskip hkey hmin)
  | false =>
    rw [if_neg (by decide)]
    obtain ⟨hwf, hplace, -, -⟩ :=
      presence_localLock (hw.wellFormed.row key) args.type.kind false host
    have hwf' := hw.wellFormed.onRow_samePlace hplace hwf
    cases hok : (RowState.localLock args.type.kind false (t.row key) host).success with
    | false =>
      dsimp only
      rw [if_neg (by rw [hok]; decide)]
      exact ⟨rfl, nofun, fun _ => ⟨hwf', .failure rfl⟩⟩
    | true =>
      have hg := guards_localLock hw hskip hkey hleaf (pairwise_cons.mp hahead.sorted).1
        hahead.remaining hok
      dsimp only
      rw [if_pos hok]
      cases hnext : args.locking_next_tuple scan.scan_results key
          (last_leaf && rest.isEmpty) with
      | true =>
        have hstop : args.StopsAt scan.scan_results key := by
          refine stopsAt_of_locking_next_tuple hnext fun hlast => ?_
          obtain ⟨hlast', hempty⟩ := (Bool.and_eq_true _ _).mp hlast
          rw [List.isEmpty_iff] at hempty
          subst hempty
          exact stopsAt_of_last_tuple hw hskip hmax (hahead.last hlast') hahead.remaining
        rw [if_pos rfl]
        exact ⟨rfl, nofun, fun _ => ⟨hwf', .success key rfl rfl ⟨hg, hw.within, hstop⟩⟩⟩
      | false =>
        rw [if_neg (by decide)]
        refine ⟨rfl, fun _ => ⟨⟨hwf', hg, hw.within.push hnext⟩, ?_, rfl⟩, nofun⟩
        refine hahead.tail fun k hk => ?_
        rw [mem_append, not_or] at hk
        exact ⟨hk.1, fun heq => absurd (mem_singleton.mpr heq) hk.2⟩

theorem handles_scanLeaf (host : Host) (hw : Walking args pending t scan)
    (hmax : ∃ k ∈ t.keys, args.max_key < k)
    (hahead : Ahead args lowKey leaf last_leaf t.keys rest scan.scan_results) :
    Handles args lowKey leaf last_leaf pending [] t scan
      (scanLeaf host args last_leaf rest t scan) := by
  induction rest generalizing t scan with
  | nil =>
    rw [scanLeaf]
    exact ⟨rfl, fun _ => ⟨hw, hahead, rfl⟩, nofun⟩
  | cons key rest ih =>
    have hstep := handles_processor host hw hmax hahead
    rw [scanLeaf]
    generalize local_scan_processor host args key (last_leaf && rest.isEmpty) t scan = res at hstep
    obtain ⟨t', scan', quit⟩ := res
    cases quit with
    | true => exact ⟨hstep.keys, nofun, hstep.ends⟩
    | false =>
      obtain ⟨hw', hahead', hnext'⟩ := hstep.goes_on rfl
      have hkeys : t'.keys = t.keys := hstep.keys
      rw [← hkeys] at hmax hahead'
      have hrest := ih hw' hmax hahead'
      refine ⟨hrest.keys.trans hkeys, fun hquit => ?_, hrest.ends⟩
      obtain ⟨hwalk, hleft, hnext⟩ := hrest.goes_on hquit
      rw [hkeys] at hleft
      exact ⟨hwalk, hleft, hnext.trans hnext'⟩

end LocalScan

namespace LocalScanSystem

variable {K α : Type} [LinearOrder K] {maxEntries : Nat} {ctx : Context} {host : Host}
  {args : ScanArgs K} {s s' : LocalScanSystem K α}

-- When the scan goes into a leaf, every key from `min_key` on that is smaller than the key it
-- goes in with is among its results; and it leaves for leaves that are not empty.
def PassesNothing (args : ScanArgs K) (s : LocalScanSystem K α) : LocalPhase K → Prop
  | .entering lowKey =>
    ∀ k ∈ s.table.keys, args.min_key ≤ k → k < lowKey → k ∈ s.scan.scan_results
  | .leaving nextLeaf => ∀ leaf ∈ s.leaves, leaf.id = nextLeaf → leaf.keys ≠ []
  | .returned _ => True

instance (s : LocalScanSystem K α) (phase : LocalPhase K) :
    Decidable (s.PassesNothing args phase) := by
  rcases phase with lowKey | _ | _
  · exact decidable_of_iff (∀ k ∈ s.table.keys, args.min_key ≤ k → k < lowKey →
      s.scan.scan_results.contains k = true) (by simp [PassesNothing])
  all_goals
    unfold PassesNothing
    infer_instance

def ScansWithoutGap (args : ScanArgs K) (s : LocalScanSystem K α) : LocalScanLabel K α → Prop
  | .scan => s.PassesNothing args s.scan.phase
  | _ => True

instance (s : LocalScanSystem K α) (e : LocalScanLabel K α) :
    Decidable (s.ScansWithoutGap args e) := by
  cases e <;> unfold ScansWithoutGap <;> infer_instance

structure Ready (inserts : InsertSystem K α) (leaves : List (BTreeLeaf K)) : Prop where
  pending : inserts.Ready
  ordered : Ordered none leaves
  keys : inserts.table.keys = contents leaves

-- A scan of an empty range may come to the end of the leaves without a next row.
inductive Succeeds (args : ScanArgs K) (s : LocalScanSystem K α) : Prop
  | next (next : K) (hnext : s.scan.next_row_entity = some next)
      (hfound : Found args s.inserts.nextRows s.table s.scan.scan_results next) :
      Succeeds args s
  | empty (hnext : s.scan.next_row_entity = none) (hrange : args.max_key < args.min_key)
      (hresults : s.scan.scan_results = []) : Succeeds args s

def Progress (args : ScanArgs K) (s : LocalScanSystem K α) : Prop :=
  match s.scan.phase with
  | .entering _ | .leaving _ =>
    Walking args s.inserts.nextRows s.table s.scan ∧ s.scan.next_row_entity = none
  | .returned true => s.Succeeds args
  | .returned false => True

structure ScanInv (args : ScanArgs K) (s : LocalScanSystem K α) : Prop where
  wellFormed : s.table.WellFormed
  ordered : Ordered none s.leaves
  keys : s.table.keys = contents s.leaves
  max : ∃ k ∈ s.table.keys, args.max_key < k
  progress : s.Progress args

variable {inserts : InsertSystem K α}

theorem Progress.of_guarded {leaves : List (BTreeLeaf K)} (h : s.Progress args)
    (hwf : inserts.table.WellFormed)
    (hguard : ∀ held, s.inserts.Guarded args.type.kind args.min_key held →
      inserts.Guarded args.type.kind args.min_key held) :
    (LocalScanSystem.mk inserts leaves s.scan).Progress args := by
  have hwalk : Walking args s.inserts.nextRows s.table s.scan →
      Walking args inserts.nextRows inserts.table s.scan :=
    fun hw => ⟨hwf, hguard _ hw.guarded, hw.within⟩
  unfold Progress at h ⊢
  dsimp only
  split at h
  · exact ⟨hwalk h.1, h.2⟩
  · exact ⟨hwalk h.1, h.2⟩
  · cases h with
    | next next hnext hfound =>
      exact .next next hnext ⟨hguard _ hfound.guarded, hfound.within, hfound.stops⟩
    | empty hnext hrange hresults => exact .empty hnext hrange hresults
  · trivial

theorem scanInv_other {e : InsertLabel K α} (hs : s.ScanInv args)
    (hinsert : ∀ key value, e ≠ .insert key value) (h : s.inserts.step ctx host e = some inserts) :
    ({ s with inserts := inserts } : LocalScanSystem K α).ScanInv args := by
  have hkeys : inserts.table.keys = s.table.keys := keys_step hinsert hs.wellFormed h
  have hwf := wellFormed_step hs.wellFormed h
  obtain ⟨k, hk, hlt⟩ := hs.max
  exact ⟨hwf, hs.ordered, hkeys.trans hs.keys, ⟨k, hkeys ▸ hk, hlt⟩,
    hs.progress.of_guarded hwf fun held hg => guarded_step hs.wellFormed hg h⟩

variable {key : K}

theorem scanInv_insert {value : α} (hs : s.ScanInv args)
    (h : s.insert maxEntries host key value = some s') : s'.ScanInv args := by
  simp only [insert, bind_eq_some_iff] at h
  obtain ⟨⟨leaf, nextLeaf⟩, hloc, h⟩ := h
  have hl := hs.ordered.locates hloc
  split at h
  · cases h
  split at h
  · cases h
    exact hs
  rename_i hleaf
  simp only [bind_eq_some_iff, map_eq_some_iff] at h
  obtain ⟨next, hnext, ⟨t, ok⟩, hinsert, rfl⟩ := h
  have hkey : key ∉ contents s.leaves := fun hmem => hleaf (hl.self hmem)
  have htrue : nextIn s.table.keys key = some next := by
    rw [hs.keys]
    exact hl.nextIn_eq hleaf hnext
  obtain ⟨hins, hwf⟩ := insertBetween_spec hs.wellFormed (hs.keys ▸ hkey) hinsert
  rw [← htrue] at hins
  have hguard : ∀ held, s.inserts.Guarded args.type.kind args.min_key held →
      (s.inserts.afterInsert key (some next) (t, ok)).Guarded args.type.kind args.min_key held := by
    intro held hg
    have hafter := guarded_afterInsert hg hins
    rw [show nextIn s.inserts.table.keys key = some next from htrue] at hafter
    exact hafter
  obtain ⟨k, hk, hlt⟩ := hs.max
  obtain ⟨hordered, hcontents⟩ := hs.ordered.insertKey (by simp) hkey
  cases hins with
  | refused hkeys hinfo =>
    exact ⟨hwf, hs.ordered, hkeys.trans hs.keys, ⟨k, hkeys ▸ hk, hlt⟩,
      hs.progress.of_guarded hwf hguard⟩
  | unlocked _ hlock => cases hlock
  | locked _ _ _ _ hkeys hinfo =>
    refine ⟨hwf, hordered, ?_, ⟨k, ?_, hlt⟩, hs.progress.of_guarded hwf hguard⟩
    · change t.keys = contents (insertKey key s.leaves)
      rw [hkeys, hcontents, hs.keys]
    · change k ∈ t.keys
      rw [hkeys]
      exact Finset.mem_insert_of_mem hk

theorem scanInv_split {id : Nat} (hs : s.ScanInv args) (h : s.split maxEntries key id = some s') :
    s'.ScanInv args := by
  simp only [split, bind_eq_some_iff] at h
  obtain ⟨⟨leaf, nextLeaf⟩, -, h⟩ := h
  split at h
  · rw [map_eq_some_iff] at h
    obtain ⟨leaves, hsplit, rfl⟩ := h
    obtain ⟨hordered, hcontents⟩ := hs.ordered.splitLeaf hsplit
    exact ⟨hs.wellFormed, hordered, hs.keys.trans hcontents.symm, hs.max,
      hs.progress.of_guarded hs.wellFormed fun _ hg => hg⟩
  · cases h

variable {lowKey : K}

theorem ahead_atLeast {leaf : BTreeLeaf K} {nextLeaf : Option (BTreeLeaf K)} (hs : s.ScanInv args)
    (hloc : locate lowKey s.leaves = some (leaf, nextLeaf))
    (hgap : s.PassesNothing args (.entering lowKey)) :
    Ahead args lowKey leaf nextLeaf.isNone s.table.keys (leaf.atLeast lowKey)
      s.scan.scan_results := by
  have hl := hs.ordered.locates hloc
  have hmem : ∀ {x}, x ∈ leaf.atLeast lowKey ↔ x ∈ leaf.keys ∧ lowKey ≤ x :=
    BTreeOLC.mem_atLeast hl.sorted
  refine ⟨BTreeOLC.pairwise_atLeast hl.sorted, fun x hx => (hmem.mp hx).1, fun x hx => ?_,
    fun hlast k hk hlow => ?_, fun k hk hmin hnot => ?_⟩
  · rw [hs.keys]
    exact hl.mem x (hmem.mp hx).1
  · rw [hs.keys] at hk
    exact hl.last (isNone_iff_eq_none.mp hlast) k hk hlow
  · have hlow : lowKey ≤ k := not_lt.mp fun hlt => hnot (hgap k hk hmin hlt)
    by_cases hleaf : k ∈ leaf.keys
    · exact .inl (hmem.mpr ⟨hleaf, hlow⟩)
    · rw [hs.keys] at hk
      exact .inr ⟨hleaf, hlow, hl.beyond k hk hlow hleaf⟩

theorem empty_of_last_leaf {leaf : BTreeLeaf K} {t : Table K α} {scan : LocalScan K}
    {pending : List K} (hs : s.ScanInv args) (hw : Walking args pending t scan)
    (hahead : Ahead args lowKey leaf true s.table.keys [] scan.scan_results) :
    args.max_key < args.min_key ∧ scan.scan_results = [] := by
  have hrange : args.max_key < args.min_key := by
    obtain ⟨k, hk, hlt⟩ := hs.max
    by_contra hle
    have hmin : args.min_key ≤ k := (not_lt.mp hle).trans hlt.le
    have hnot : k ∉ scan.scan_results := fun hmem =>
      absurd (hw.within.max_key k hmem) (not_le.mpr hlt)
    rcases hahead.remaining k hk hmin hnot with hmem | ⟨hleaf, hlow, -⟩
    · cases hmem
    · exact hleaf (hahead.last rfl k hk hlow)
  refine ⟨hrange, eq_nil_iff_forall_not_mem.mpr fun k hk => ?_⟩
  have hmin := hw.guarded.low_le k hk
  have hmax := hw.within.max_key k hk
  exact absurd (hmin.trans hmax) (not_le.mpr hrange)

theorem scanInv_entering (hs : s.ScanInv args) (hphase : s.scan.phase = .entering lowKey)
    (hok : s.ScansWithoutGap args .scan) (h : s.scanStep host args = some s') :
    s'.ScanInv args := by
  have hprogress := hs.progress
  have hgap : s.PassesNothing args s.scan.phase := hok
  rw [hphase] at hgap
  rw [Progress, hphase] at hprogress
  obtain ⟨hw, hnone⟩ := hprogress
  simp only [scanStep, hphase, map_eq_some_iff] at h
  obtain ⟨⟨leaf, nextLeaf⟩, hloc, h⟩ := h
  have hhandles := handles_scanLeaf host hw hs.max (ahead_atLeast hs hloc hgap)
  dsimp only at h
  generalize scanLeaf host args nextLeaf.isNone (leaf.atLeast lowKey) s.table s.scan = res
    at h hhandles
  obtain ⟨t, scan, quit⟩ := res
  have hkeys : t.keys = s.table.keys := hhandles.keys
  obtain ⟨k, hk, hlt⟩ := hs.max
  have hmax : ∃ k ∈ t.keys, args.max_key < k := ⟨k, hkeys ▸ hk, hlt⟩
  cases quit with
  | true =>
    obtain ⟨hwf, hends⟩ := hhandles.ends rfl
    subst h
    refine ⟨hwf, hs.ordered, hkeys.trans hs.keys, hmax, ?_⟩
    cases hends with
    | success next hreturn hnext hfound =>
      have hreturn' : scan.phase = .returned true := hreturn
      simp only [Progress, if_true, hreturn']
      exact .next next hnext hfound
    | failure hreturn =>
      have hreturn' : scan.phase = .returned false := hreturn
      simp only [Progress, if_true, hreturn']
  | false =>
    obtain ⟨hwalk, hahead, hnext⟩ := hhandles.goes_on rfl
    have hwalk' : Walking args s.inserts.nextRows t scan := hwalk
    have hnext' : scan.next_row_entity = none := hnext.trans hnone
    subst h
    refine ⟨hwalk.wellFormed, hs.ordered, hkeys.trans hs.keys, hmax, ?_⟩
    cases nextLeaf with
    | some leaf' =>
      exact ⟨⟨hwalk'.wellFormed, hwalk'.guarded, hwalk'.within⟩, hnext'⟩
    | none =>
      obtain ⟨hrange, hempty⟩ := empty_of_last_leaf hs hwalk' hahead
      exact .empty hnext' hrange hempty

theorem scanInv_scanStep (hs : s.ScanInv args) (hok : s.ScansWithoutGap args .scan)
    (h : s.scanStep host args = some s') : s'.ScanInv args := by
  cases hphase : s.scan.phase with
  | entering lowKey => exact scanInv_entering hs hphase hok h
  | leaving nextLeaf =>
    have hprogress := hs.progress
    have hempty : s.PassesNothing args s.scan.phase := hok
    rw [hphase] at hempty
    rw [Progress, hphase] at hprogress
    obtain ⟨hw, hnone⟩ := hprogress
    simp only [scanStep, hphase, map_eq_some_iff] at h
    obtain ⟨leaf, hfind, rfl⟩ := h
    have hid : leaf.id = nextLeaf := by simpa using List.find?_some hfind
    have hne := hempty leaf (mem_of_find?_eq_some hfind) hid
    obtain ⟨lowKey, rest, hkeys⟩ := exists_cons_of_ne_nil hne
    refine ⟨hs.wellFormed, hs.ordered, hs.keys, hs.max, ?_⟩
    rw [Progress]
    simp only [hkeys, List.head?_cons]
    exact ⟨⟨hw.wellFormed, hw.guarded, hw.within⟩, hnone⟩
  | returned scan_success =>
    simp only [scanStep, hphase] at h
    cases h

theorem scanInv_step {e : LocalScanLabel K α} (hs : s.ScanInv args)
    (hok : s.ScansWithoutGap args e) (h : s.step maxEntries ctx host args e = some s') :
    s'.ScanInv args := by
  cases e with
  | other e =>
    by_cases hinsert : ∃ key value, e = .insert key value
    · obtain ⟨key, value, rfl⟩ := hinsert
      exact scanInv_insert hs h
    · have hne : ∀ key value, e ≠ .insert key value := fun key value heq =>
        hinsert ⟨key, value, heq⟩
      have hstep : (s.inserts.step ctx host e).map (fun inserts => { s with inserts := inserts })
          = some s' := by
        cases e with
        | insert key value => exact absurd rfl (hne key value)
        | _ => exact h
      rw [map_eq_some_iff] at hstep
      obtain ⟨inserts, hother, rfl⟩ := hstep
      exact scanInv_other hs hne hother
  | split key id => exact scanInv_split hs h
  | scan => exact scanInv_scanStep hs hok h

theorem scanInv_start {leaves : List (BTreeLeaf K)} (hready : Ready inserts leaves)
    (hmax : ∃ k ∈ inserts.table.keys, args.max_key < k) :
    (LocalScanSystem.mk inserts leaves (start args.min_key)).ScanInv args :=
  ⟨hready.pending.wellFormed, hready.ordered, hready.keys, hmax,
    ⟨hready.pending.wellFormed, hready.pending.guarded .., within_nil⟩, rfl⟩

theorem insert_refused {next : K} {value : α} (hs : s.ScanInv args)
    (hfound : Found args s.inserts.nextRows s.table s.scan.scan_results next)
    (hmin : args.min_key ≤ key) (hle : key ≤ next)
    (h : s.insert maxEntries host key value = some s') :
    s'.table.keys = s.table.keys ∧ s'.inserts.pending = s.inserts.pending := by
  simp only [insert, bind_eq_some_iff] at h
  obtain ⟨⟨leaf, nextLeaf⟩, hloc, h⟩ := h
  have hl := hs.ordered.locates hloc
  split at h
  · cases h
  split at h
  · cases h
    exact ⟨rfl, rfl⟩
  rename_i hleaf
  simp only [bind_eq_some_iff, map_eq_some_iff] at h
  obtain ⟨n, hnext, ⟨t, ok⟩, hinsert, rfl⟩ := h
  have hkey : key ∉ s.table.keys := by
    rw [hs.keys]
    exact fun hmem => hleaf (hl.self hmem)
  have htrue : nextIn s.table.keys key = some n := by
    rw [hs.keys]
    exact hl.nextIn_eq hleaf hnext
  cases (insertBetween_spec hs.wellFormed hkey hinsert).1 with
  | refused hkeys hinfo => exact ⟨hkeys, rfl⟩
  | unlocked _ hlock => cases hlock
  | locked _ _ hn hfree =>
    have hrefuses := hfound.guarded.refuses hkey hmin
      (mem_append_right _ (mem_singleton_self next)) hle (htrue.trans hn) 31
    exact absurd (hfree.symm.trans hrefuses) (by decide)

-- A scan that returns success has found the rows of its range, and until it lets go of them
-- no insert up to the next row gets through.
theorem local_scan_sees_no_phantoms (maxEntries : Nat) (ctx : Context) (host : Host)
    (args : ScanArgs K) {inserts : InsertSystem K α} {leaves : List (BTreeLeaf K)}
    (hready : Ready inserts leaves) (hmax : ∃ k ∈ inserts.table.keys, args.max_key < k)
    {s : LocalScanSystem K α}
    (hreach : Reach (step maxEntries ctx host args) (ScansWithoutGap args)
      ⟨inserts, leaves, start args.min_key⟩ s)
    (hreturn : s.scan.phase = .returned true) :
    s.scan.scan_results = args.rows s.table.keys ∧
    ((∃ next, s.scan.next_row_entity = some next ∧
        ∀ key, args.min_key ≤ key → key ≤ next → ∀ value s',
          s.insert maxEntries host key value = some s' →
          s'.table.keys = s.table.keys ∧ s'.inserts.pending = s.inserts.pending) ∨
      s.scan.next_row_entity = none ∧ args.max_key < args.min_key) := by
  have hs := hreach.invariant (P := ScanInv args) (scanInv_start hready hmax)
    fun _ _ _ hs hok h => scanInv_step hs hok h
  have hsucceeds : s.Succeeds args := by
    have hprogress := hs.progress
    rw [Progress, hreturn] at hprogress
    exact hprogress
  cases hsucceeds with
  | next next hnext hfound =>
    refine ⟨eq_rows hfound.guarded hfound.within hfound.stops, .inl ⟨next, hnext, ?_⟩⟩
    intro key hmin hle value s' h
    exact insert_refused hs hfound hmin hle h
  | empty hnext hrange hresults =>
    refine ⟨?_, .inr ⟨hnext, hrange⟩⟩
    rw [hresults, rows_of_lt hrange]

section Example

def twoLeaves : List (BTreeLeaf Nat) := [⟨0, none, [1, 3], some 3⟩, ⟨1, some 0, [7, 9], none⟩]

def fourRows : InsertSystem Nat Nat :=
  ⟨load (contents twoLeaves) (fun _ => ⟨0⟩) (fun _ => ⟨0, 0, 0, 0⟩) id, []⟩

def upToEight : ScanArgs Nat := ⟨2, 8, 0, .SCAN_FOR_UPDATE⟩

theorem ready_fourRows : Ready fourRows twoLeaves where
  pending := ⟨wellFormed_load .., nofun, nofun, nodup_nil⟩
  ordered := .cons (by decide) (by simp) rfl (by decide) (by simp)
    (.last (by decide) (by decide) rfl)
  keys := rfl

theorem insert_ahead_of_scan_is_seen :
    ∃ s : LocalScanSystem Nat Nat,
      Reach (step 4 ⟨true, true⟩ 0 upToEight) (ScansWithoutGap upToEight)
        ⟨fourRows, twoLeaves, start 2⟩ s ∧
      s.scan.scan_results = upToEight.rows s.table.keys := by
  obtain ⟨s, hreach, hreturn⟩ := exists_reach_of_run (step 4 ⟨true, true⟩ 0 upToEight)
    (ScansWithoutGap upToEight) ⟨fourRows, twoLeaves, start 2⟩
    [.scan, .other (.insert 2 20), .other (.insert 5 50), .other (.commitInsert 5),
      .other (.releaseNext 5 7), .scan, .scan]
    (fun s => s.scan.phase = .returned true) (by decide +kernel)
  exact ⟨s, hreach, (local_scan_sees_no_phantoms 4 ⟨true, true⟩ 0 upToEight ready_fourRows
    (by decide) hreach hreturn).1⟩

-- One that comes between two leaves is not.
theorem insert_between_leaves_is_missed :
    ∃ s : LocalScanSystem Nat Nat,
      Reach (step 4 ⟨true, true⟩ 0 upToEight) (fun _ _ => True)
        ⟨fourRows, twoLeaves, start 2⟩ s ∧
      s.scan.phase = .returned true ∧ s.scan.scan_results = [3, 7] ∧ 5 ∈ s.table.keys :=
  exists_reach_of_run _ _ _
    [.scan, .scan, .other (.insert 5 50), .other (.commitInsert 5), .other (.releaseNext 5 7),
      .scan] _
    (by decide +kernel)

end Example

end LocalScanSystem

end Tigon.TwoPLPasha
