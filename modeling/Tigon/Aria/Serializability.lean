import Mathlib.Data.BitVec
import Tigon.Aria.Reservations

namespace Tigon.Aria

open List Tigon.Library SnapshotOrder
open AriaHelper

theorem Program.execute_congr {κ α : Type} {db db' : κ → α} (p : Program κ α)
    (h : ∀ k ∈ (p.execute db).readSet.map Prod.fst, db' k = db k) :
    p.execute db' = p.execute db := by
  induction p with
  | search_local_index key next ih | search key next ih =>
    simp only [execute, map_cons, mem_cons, forall_eq_or_imp] at h ⊢
    rw [h.1, ih (db key) h.2]
  | update key value next ih =>
    simp only [execute] at h ⊢
    rw [ih h]
  | ready | abortNoRetry => rfl

structure Flags.Le (f g : Flags) : Prop where
  waw : f.waw = true → g.waw = true
  war : f.war = true → g.war = true
  raw : f.raw = true → g.raw = true

namespace Flags.Le

variable {f g h : Flags}

theorem refl (f : Flags) : f.Le f := ⟨id, id, id⟩

theorem trans (hfg : f.Le g) (hgh : g.Le h) : f.Le h :=
  ⟨hgh.waw ∘ hfg.waw, hgh.war ∘ hfg.war, hgh.raw ∘ hfg.raw⟩

end Flags.Le

namespace Batch

variable {κ α : Type} [DecidableEq κ] {b : Batch κ α} {metadata : κ → Word}
  {txn t u : Transaction κ α} {flags : Flags} {k : κ}

section Analysis

section

omit [DecidableEq κ]

theorem analyzeReads_le (metadata : κ → Word) (txn : Transaction κ α)
    (rs : List (κ × Bool)) (flags : Flags) :
    flags.Le (b.analyzeReads metadata txn rs flags).1 ∧
      ∀ k, (k, false) ∈ rs →
        (b.localCheck metadata txn k false).Le (b.analyzeReads metadata txn rs flags).1 ∨
        (k, false) ∈ (b.analyzeReads metadata txn rs flags).2 := by
  induction rs with
  | nil => exact ⟨.refl flags, nofun⟩
  | cons r rs ih =>
    obtain ⟨key, bit⟩ := r
    obtain ⟨hkeep, hall⟩ := ih
    cases bit with
    | true =>
      refine ⟨hkeep, fun k hk => ?_⟩
      rcases mem_cons.mp hk with hk | hk
      · cases hk
      · exact hall k hk
    | false =>
      rw [analyzeReads]
      split
      · split
        · -- the loop ends with the flag set
          refine ⟨⟨id, id, fun _ => rfl⟩, fun k _ => .inl ⟨nofun, nofun, fun _ => rfl⟩⟩
        · rename_i hraw
          refine ⟨hkeep, fun k hk => ?_⟩
          rcases mem_cons.mp hk with hk | hk
          · obtain rfl : k = key := (Prod.mk.inj hk).1
            exact .inl ⟨nofun, nofun, fun h => absurd h hraw⟩
          · exact hall k hk
      · refine ⟨hkeep, fun k hk => ?_⟩
        rcases mem_cons.mp hk with hk | hk
        · exact .inr (hk ▸ mem_cons_self)
        · exact (hall k hk).imp id (mem_cons_of_mem _)

theorem analyzeWrites_le (metadata : κ → Word) (txn : Transaction κ α) (keys : List κ)
    (flags : Flags) :
    flags.Le (b.analyzeWrites metadata txn keys flags).1 ∧
      ∀ k ∈ keys,
        (b.localCheck metadata txn k true).Le (b.analyzeWrites metadata txn keys flags).1 ∨
        (k, true) ∈ (b.analyzeWrites metadata txn keys flags).2 := by
  induction keys generalizing flags with
  | nil => exact ⟨.refl flags, nofun⟩
  | cons key keys ih =>
    simp only [analyzeWrites]
    split
    · let more : Flags := { flags with
        war := flags.war || (b.localCheck metadata txn key true).war
        waw := flags.waw || (b.localCheck metadata txn key true).waw }
      have hmore : flags.Le more := ⟨fun h => by simp [more, h], fun h => by simp [more, h], id⟩
      have hfound : (b.localCheck metadata txn key true).Le more :=
        ⟨fun h => by simp [more, h], fun h => by simp [more, h], nofun⟩
      obtain ⟨hkeep, hall⟩ := ih more
      refine ⟨hmore.trans hkeep, fun k hk => ?_⟩
      rcases mem_cons.mp hk with rfl | hk
      · exact .inl (hfound.trans hkeep)
      · exact hall k hk
    · obtain ⟨hkeep, hall⟩ := ih flags
      refine ⟨hkeep, fun k hk => ?_⟩
      rcases mem_cons.mp hk with rfl | hk
      · exact .inr mem_cons_self
      · exact (hall k hk).imp id (mem_cons_of_mem _)

theorem foldl_answer_le (metadata : κ → Word) (hid : txn.id < 2 ^ 32)
    (requests : List (κ × Bool)) (flags : Flags) :
    flags.Le (requests.foldl (b.answer metadata txn) flags) ∧
      ∀ r ∈ requests, (b.localCheck metadata txn r.1 r.2).Le
        (requests.foldl (b.answer metadata txn) flags) := by
  have htid : (BitVec.ofNat 32 txn.id).setWidth 64 = BitVec.ofNat 64 txn.id := by
    apply BitVec.eq_of_toNat_eq
    simp only [BitVec.toNat_setWidth, BitVec.toNat_ofNat]
    omega
  have hanswer : ∀ (flags : Flags) (r : κ × Bool), flags.Le (b.answer metadata txn flags r) ∧
      (b.localCheck metadata txn r.1 r.2).Le (b.answer metadata txn flags r) := by
    rintro flags ⟨key, is_write⟩
    simp only [answer, htid]
    change _ ∧ (b.check (metadata key) (BitVec.ofNat 64 txn.id) is_write).Le _
    cases is_write with
    | true => exact ⟨⟨fun h => by simp [h], fun h => by simp [h], id⟩,
        ⟨fun h => by simp [h], fun h => by simp [h], nofun⟩⟩
    | false => exact ⟨⟨id, id, fun h => by simp [h]⟩, ⟨nofun, nofun, fun h => by simp [h]⟩⟩
  induction requests generalizing flags with
  | nil => exact ⟨.refl flags, nofun⟩
  | cons r requests ih =>
    obtain ⟨hkeep, hall⟩ := ih (b.answer metadata txn flags r)
    refine ⟨(hanswer flags r).1.trans hkeep, fun r' hr' => ?_⟩
    rcases mem_cons.mp hr' with rfl | hr'
    · exact (hanswer flags r').2.trans hkeep
    · exact hall r' hr'

theorem localCheck_le_flags (metadata : κ → Word) (hid : txn.id < 2 ^ 32)
    (hskips : b.skips txn = false) :
    (∀ k, (k, false) ∈ (b.execution txn).readSet →
      (b.localCheck metadata txn k false).Le (b.flags metadata txn)) ∧
    ∀ k ∈ (b.execution txn).writeSet.map Prod.fst,
      (b.localCheck metadata txn k true).Le (b.flags metadata txn) := by
  obtain ⟨-, hreads⟩ := b.analyzeReads_le metadata txn
    (b.execution txn).readSet ⟨false, false, false⟩
  obtain ⟨hkeep, hwrites⟩ := b.analyzeWrites_le metadata txn
    ((b.execution txn).writeSet.map Prod.fst)
    (b.analyzeReads metadata txn (b.execution txn).readSet ⟨false, false, false⟩).1
  have hflags : b.flags metadata txn = List.foldl (b.answer metadata txn)
      (b.analyze_dependency metadata txn).1 (b.analyze_dependency metadata txn).2 := rfl
  simp only [analyze_dependency, hskips, Bool.false_eq_true, if_false] at hflags
  obtain ⟨hfold, hanswered⟩ := b.foldl_answer_le metadata hid
    ((b.analyzeReads metadata txn (b.execution txn).readSet ⟨false, false, false⟩).2
      ++ (b.analyzeWrites metadata txn ((b.execution txn).writeSet.map Prod.fst)
        (b.analyzeReads metadata txn (b.execution txn).readSet ⟨false, false, false⟩).1).2)
    (b.analyzeWrites metadata txn ((b.execution txn).writeSet.map Prod.fst)
      (b.analyzeReads metadata txn (b.execution txn).readSet ⟨false, false, false⟩).1).1
  rw [hflags]
  refine ⟨fun k hk => ?_, fun k hk => ?_⟩
  · rcases hreads k hk with hle | hmem
    · exact (hle.trans hkeep).trans hfold
    · exact hanswered (k, false) (mem_append_left _ hmem)
  · rcases hwrites k hk with hle | hmem
    · exact hle.trans hfold
    · exact hanswered (k, true) (mem_append_right _ hmem)

theorem check_of_holds {r : Reservation κ} (txn : Transaction κ α)
    (h : b.Holds r (metadata k)) (hid : txn.id < 2 ^ 20) (hlt : r.tid < txn.id) :
    (r.is_write = true → (b.localCheck metadata txn k true).waw = true ∧
      (b.localCheck metadata txn k false).raw = true) ∧
    (r.is_write = false → (b.localCheck metadata txn k true).war = true) := by
  have htid : (BitVec.ofNat 64 txn.id).toNat = txn.id := by
    rw [BitVec.toNat_ofNat]
    omega
  obtain ⟨hepoch, hpos, hle⟩ := h
  have hbefore : ∀ field : Word, 0 < field.toNat → field.toNat ≤ r.tid →
      field < BitVec.ofNat 64 txn.id ∧ field ≠ 0#64 := by
    intro field hpos hle
    refine ⟨BitVec.lt_def.mpr (by omega), ?_⟩
    rintro rfl
    exact absurd hpos (by decide)
  refine ⟨fun hwrite => ?_, fun hwrite => ?_⟩
  · rw [hwrite] at hpos hle
    obtain ⟨hless, hne⟩ := hbefore (get_wts (metadata k)) hpos hle
    simp [localCheck, check, hepoch, hless, hne]
  · rw [hwrite] at hpos hle
    obtain ⟨hless, hne⟩ := hbefore (get_rts (metadata k)) hpos hle
    simp [localCheck, check, hepoch, hless, hne]

end

end Analysis

-- A batch as the manager starts it: distinct tids that fit, an epoch that no row has seen, and
-- read-only indexes.
structure Starts (b : Batch κ α) (old : κ → Word) : Prop where
  epoch_lt : b.epoch.toNat < 2 ^ 24
  stale : ∀ k, (get_epoch (old k)).toNat < b.epoch.toNat
  nodup : (b.transactions.map Transaction.id).Nodup
  pos : ∀ t ∈ b.transactions, 0 < t.id
  lt : ∀ t ∈ b.transactions, t.id < 2 ^ 20
  index : ∀ t ∈ b.transactions, ∀ k, (k, true) ∈ (b.execution t).readSet →
    ∀ u ∈ b.transactions, k ∉ (b.execution u).writeSet.map Prod.fst

omit [DecidableEq κ] in
theorem Starts.id_inj {old : κ → Word} (h : b.Starts old) (ht : t ∈ b.transactions)
    (hu : u ∈ b.transactions) (hid : t.id = u.id) : t = u :=
  inj_on_of_nodup_map h.nodup ht hu hid

structure Analyzed (b : Batch κ α) (metadata : κ → Word) : Prop where
  holds : ∀ t ∈ b.transactions, ∀ r ∈ b.reserve_transaction t, b.Holds r (metadata r.key)

omit [DecidableEq κ] in
theorem tid_of_mem_reserve {r : Reservation κ} (h : r ∈ b.reserve_transaction t) :
    r.tid = t.id := by
  unfold reserve_transaction at h
  dsimp only at h
  split at h
  · cases h
  · rcases mem_append.mp h with h | h
    · obtain ⟨⟨k, bit⟩, -, hr⟩ := mem_filterMap.mp h
      dsimp only at hr
      split at hr
      · cases hr
      · rw [← Option.some.inj hr]
    · obtain ⟨w, -, rfl⟩ := mem_map.mp h
      rfl

omit [DecidableEq κ] in
theorem commits_iff (hsi : b.context.aria_snapshot_isolation = false)
    (h : b.commits metadata t = true) :
    (b.execution t).abort_no_retry = false ∧ (b.skips t = false →
      (b.flags metadata t).waw = false ∧
      ((b.flags metadata t).war = false ∨ (b.flags metadata t).raw = false)) := by
  unfold commits at h
  cases habort : (b.execution t).abort_no_retry with
  | true => simp [habort] at h
  | false =>
    refine ⟨rfl, fun hskips => ?_⟩
    cases hwaw : (b.flags metadata t).waw with
    | true => simp [habort, hskips, hwaw] at h
    | false =>
      refine ⟨rfl, ?_⟩
      simp only [habort, hskips, hwaw, hsi, Bool.false_eq_true, if_false] at h
      split at h
      · simpa using h
      · exact .inr (by simpa using h)

section Conflicts

variable (hbound : ∀ t ∈ b.transactions, t.id < 2 ^ 20) (hall : b.Analyzed metadata)

include hbound hall

omit [DecidableEq κ] in
theorem flags_of_write (ht : t ∈ b.transactions) (habort : (b.execution t).abort_no_retry = false)
    (hskips : b.skips t = false) (hk : k ∈ (b.execution t).writeSet.map Prod.fst)
    (hu : u ∈ b.transactions) (hskips' : b.skips u = false) (hlt : t.id < u.id) :
    (k ∈ (b.execution u).writeSet.map Prod.fst → (b.flags metadata u).waw = true) ∧
    ((k, false) ∈ (b.execution u).readSet → (b.flags metadata u).raw = true) := by
  have hmem : (⟨k, t.id, true⟩ : Reservation κ) ∈ b.reserve_transaction t := by
    obtain ⟨w, hw, rfl⟩ := mem_map.mp hk
    simp only [reserve_transaction, habort, hskips, Bool.false_or, Bool.false_eq_true, if_false]
    exact mem_append_right _ (mem_map.mpr ⟨w, hw, rfl⟩)
  have hid := hbound u hu
  have hcheck := (check_of_holds u (hall.holds t ht _ hmem) hid hlt).1 rfl
  obtain ⟨hreads, hwrites⟩ := localCheck_le_flags metadata (by omega) hskips'
  exact ⟨fun hku => (hwrites k hku).waw hcheck.1, fun hku => (hreads k hku).raw hcheck.2⟩

omit [DecidableEq κ] in
theorem flags_of_read (ht : t ∈ b.transactions) (habort : (b.execution t).abort_no_retry = false)
    (hskips : b.skips t = false) (hk : (k, false) ∈ (b.execution t).readSet)
    (hu : u ∈ b.transactions) (hskips' : b.skips u = false) (hlt : t.id < u.id)
    (hku : k ∈ (b.execution u).writeSet.map Prod.fst) : (b.flags metadata u).war = true := by
  have hmem : (⟨k, t.id, false⟩ : Reservation κ) ∈ b.reserve_transaction t := by
    simp only [reserve_transaction, habort, hskips, Bool.false_or, Bool.false_eq_true, if_false]
    exact mem_append_left _ (mem_filterMap.mpr ⟨(k, false), hk, rfl⟩)
  have hid := hbound u hu
  have hcheck := (check_of_holds u (hall.holds t ht _ hmem) hid hlt).2 rfl
  exact ((localCheck_le_flags metadata (by omega) hskips').2 k hku).war hcheck

end Conflicts

section Order

variable {old : κ → Word} (hstart : b.Starts old) (hall : b.Analyzed metadata)
  (hsi : b.context.aria_snapshot_isolation = false)

omit [DecidableEq κ] in
theorem writes_of_skips (h : b.skips t = true) : (b.execution t).writeSet = [] := by
  simp only [skips, Bool.and_eq_true, List.isEmpty_iff] at h
  exact h.2

include hstart hall hsi

omit [DecidableEq κ] in
theorem disjoint_of_commits (ht : t ∈ b.committed metadata) (hu : u ∈ b.committed metadata)
    (hne : t ≠ u) (hk : k ∈ (b.execution t).writeSet.map Prod.fst) :
    k ∉ (b.execution u).writeSet.map Prod.fst := by
  intro hku
  obtain ⟨ht, htc⟩ := mem_filter.mp ht
  obtain ⟨hu, huc⟩ := mem_filter.mp hu
  have hnoskip : ∀ {s : Transaction κ α}, k ∈ (b.execution s).writeSet.map Prod.fst →
      b.skips s = false := by
    intro s hs
    by_contra hskips
    rw [writes_of_skips (Bool.eq_true_of_not_eq_false hskips)] at hs
    cases hs
  obtain ⟨hta, htf⟩ := commits_iff hsi htc
  obtain ⟨hua, huf⟩ := commits_iff hsi huc
  have hids : t.id ≠ u.id := fun heq => hne (hstart.id_inj ht hu heq)
  rcases Nat.lt_or_gt_of_ne hids with hlt | hlt
  · have hwaw := (flags_of_write hstart.lt hall ht hta (hnoskip hk) hk hu (hnoskip hku) hlt).1 hku
    exact absurd (hwaw.symm.trans (huf (hnoskip hku)).1) (by decide)
  · have hwaw := (flags_of_write hstart.lt hall hu hua (hnoskip hku) hku ht (hnoskip hk) hlt).1 hk
    exact absurd (hwaw.symm.trans (htf (hnoskip hk)).1) (by decide)

omit [DecidableEq κ] in
theorem reads_of_commits (ht : t ∈ b.committed metadata) (hu : u ∈ b.committed metadata)
    (hne : t ≠ u) (hk : k ∈ (b.execution t).writeSet.map Prod.fst)
    (hku : k ∈ (b.execution u).readSet.map Prod.fst) :
    b.skips t = false ∧ (b.skips u = true ∨ b.skips u = false ∧
      (t.id < u.id ∧ (b.flags metadata u).raw = true ∨
        u.id < t.id ∧ (b.flags metadata t).raw = false)) := by
  obtain ⟨ht, htc⟩ := mem_filter.mp ht
  obtain ⟨hu, huc⟩ := mem_filter.mp hu
  have hskips : b.skips t = false := by
    by_contra hskips
    rw [writes_of_skips (Bool.eq_true_of_not_eq_false hskips)] at hk
    cases hk
  refine ⟨hskips, ?_⟩
  cases hskips' : b.skips u with
  | true => exact .inl rfl
  | false =>
    refine .inr ⟨rfl, ?_⟩
    have hread : (k, false) ∈ (b.execution u).readSet := by
      obtain ⟨⟨key, bit⟩, hmem, rfl⟩ := mem_map.mp hku
      cases bit with
      | false => exact hmem
      | true => exact absurd hk (hstart.index u hu key hmem t ht)
    obtain ⟨hta, htf⟩ := commits_iff hsi htc
    obtain ⟨hua, -⟩ := commits_iff hsi huc
    rcases Nat.lt_or_gt_of_ne fun heq => hne (hstart.id_inj ht hu heq) with hlt | hlt
    · exact .inl ⟨hlt, (flags_of_write hstart.lt hall ht hta hskips hk hu hskips' hlt).2 hread⟩
    · have hwar := flags_of_read hstart.lt hall hu hua hskips' hread ht hskips hlt hk
      refine .inr ⟨hlt, (htf hskips).2.resolve_left ?_⟩
      rw [hwar]
      decide

end Order

-- The serial order: those that only read, then those that read what smaller tids write, from
-- the largest tid down, then the others by their tids.
def serialOrder (b : Batch κ α) (metadata : κ → Word) : List (Transaction κ α) :=
  let skipped := (b.committed metadata).filter b.skips
  let analyzed := (b.committed metadata).filter fun t => !b.skips t
  let late := analyzed.filter fun t => (b.flags metadata t).raw
  let rest := analyzed.filter fun t => !(b.flags metadata t).raw
  skipped ++ (late.mergeSort (fun t u => decide (u.id ≤ t.id))
    ++ rest.mergeSort fun t u => decide (t.id ≤ u.id))

omit [DecidableEq κ] in
theorem serialOrder_perm : (b.serialOrder metadata).Perm (b.committed metadata) := by
  unfold serialOrder
  refine List.Perm.trans ?_ (filter_append_perm b.skips (b.committed metadata))
  refine List.Perm.append_left _ ?_
  refine List.Perm.trans (List.Perm.append (mergeSort_perm _ _) (mergeSort_perm _ _)) ?_
  exact filter_append_perm (fun t => (b.flags metadata t).raw) _

inductive Ordered (b : Batch κ α) (metadata : κ → Word) (t u : Transaction κ α) : Prop
  | skipped (h : b.skips t = true)
  | late (ht : (b.flags metadata t).raw = true) (hu : b.skips u = false)
      (h : (b.flags metadata u).raw = true → u.id ≤ t.id)
  | rest (hu : b.skips u = false) (hraw : (b.flags metadata u).raw = false) (h : t.id ≤ u.id)

omit [DecidableEq κ] in
theorem serialOrder_ordered : (b.serialOrder metadata).Pairwise (b.Ordered metadata) := by
  have hdown : ∀ ts : List (Transaction κ α),
      (ts.mergeSort fun t u => decide (u.id ≤ t.id)).Pairwise
      fun t u => u.id ≤ t.id := by
    intro ts
    have hsorted := @List.pairwise_mergeSort _ (fun t u : Transaction κ α => decide (u.id ≤ t.id))
      (by simp only [decide_eq_true_eq]; omega)
      (by simp only [Bool.or_eq_true, decide_eq_true_eq]; omega) ts
    exact hsorted.imp fun h => of_decide_eq_true h
  have hup : ∀ ts : List (Transaction κ α), (ts.mergeSort fun t u => decide (t.id ≤ u.id)).Pairwise
      fun t u => t.id ≤ u.id := by
    intro ts
    have hsorted := @List.pairwise_mergeSort _ (fun t u : Transaction κ α => decide (t.id ≤ u.id))
      (by simp only [decide_eq_true_eq]; omega)
      (by simp only [Bool.or_eq_true, decide_eq_true_eq]; omega) ts
    exact hsorted.imp fun h => of_decide_eq_true h
  unfold serialOrder
  dsimp only
  refine pairwise_append.mpr ⟨?_, pairwise_append.mpr ⟨?_, ?_, ?_⟩, ?_⟩
  · exact pairwise_of_forall_mem_list fun t ht _ _ => .skipped (mem_filter.mp ht).2
  · refine List.Pairwise.imp_of_mem ?_ (hdown _)
    intro t u ht hu hle
    rw [mem_mergeSort] at ht hu
    obtain ⟨hu, -⟩ := mem_filter.mp hu
    exact .late (mem_filter.mp ht).2 (by simpa using (mem_filter.mp hu).2) fun _ => hle
  · refine List.Pairwise.imp_of_mem ?_ (hup _)
    intro t u ht hu hle
    rw [mem_mergeSort] at ht hu
    obtain ⟨hu, hraw⟩ := mem_filter.mp hu
    exact .rest (by simpa using (mem_filter.mp hu).2) (by simpa using hraw) hle
  · intro t ht u hu
    rw [mem_mergeSort] at ht hu
    obtain ⟨hu, hraw⟩ := mem_filter.mp hu
    have hraw : (b.flags metadata u).raw = false := by simpa using hraw
    exact .late (mem_filter.mp ht).2 (by simpa using (mem_filter.mp hu).2)
      fun h => absurd (hraw.symm.trans h) (by decide)
  · exact fun t ht _ _ => .skipped (mem_filter.mp ht).2

section Order

variable {old : κ → Word} (hstart : b.Starts old) (hall : b.Analyzed metadata)
  (hsi : b.context.aria_snapshot_isolation = false)

include hstart hall hsi

omit [DecidableEq κ] in
theorem unread_of_ordered (ht : t ∈ b.committed metadata) (hu : u ∈ b.committed metadata)
    (hne : t ≠ u) (hordered : b.Ordered metadata t u)
    (hk : k ∈ (b.execution t).writeSet.map Prod.fst) :
    k ∉ (b.execution u).readSet.map Prod.fst := by
  intro hku
  obtain ⟨hskips, hcase⟩ := reads_of_commits hstart hall hsi ht hu hne hk hku
  cases hordered with
  | skipped h => exact absurd (hskips.symm.trans h) (by decide)
  | late hraw hskips' hdown =>
    rcases hcase with h | ⟨-, ⟨hlt, hraw'⟩ | ⟨-, hraw'⟩⟩
    · exact absurd (hskips'.symm.trans h) (by decide)
    · exact absurd (hdown hraw') (not_le.mpr hlt)
    · exact absurd (hraw.symm.trans hraw') (by decide)
  | rest hskips' hraw hup =>
    rcases hcase with h | ⟨-, ⟨-, hraw'⟩ | ⟨hlt, -⟩⟩
    · exact absurd (hskips'.symm.trans h) (by decide)
    · exact absurd (hraw.symm.trans hraw') (by decide)
    · exact absurd hup (not_le.mpr hlt)

omit [DecidableEq κ] in
theorem serialOrder_unread :
    (b.serialOrder metadata).Pairwise fun t u =>
      ∀ k ∈ (b.execution t).writeSet.map Prod.fst, k ∉ (b.execution u).readSet.map Prod.fst := by
  have hnodup : (b.serialOrder metadata).Pairwise (· ≠ ·) := by
    refine serialOrder_perm.nodup_iff.mpr (List.Nodup.filter _ ?_)
    exact List.Nodup.of_map Transaction.id hstart.nodup
  refine List.Pairwise.imp_of_mem ?_ (hnodup.and serialOrder_ordered)
  rintro t u ht hu ⟨hne, hordered⟩ k hk
  exact unread_of_ordered hstart hall hsi (serialOrder_perm.mem_iff.mp ht)
    (serialOrder_perm.mem_iff.mp hu) hne hordered hk

end Order

def writesIn (t : Transaction κ α) (db : κ → α) : List (κ × α) := (t.program.execute db).writeSet

-- Whatever the order of the reservations and of the commits, the committed transactions of a
-- batch write different rows and do what they would do one after another.
theorem batch_is_serializable (b : Batch κ α) (old : κ → Word) (hstart : b.Starts old)
    (hsi : b.context.aria_snapshot_isolation = false) (rs : List (Reservation κ))
    (hrs : rs.Perm (b.transactions.flatMap b.reserve_transaction)) :
    ∃ metadata, b.reserveAll old rs = some metadata ∧
      (∀ t ∈ b.committed metadata, ∀ u ∈ b.committed metadata, t ≠ u →
        Disjoint writesIn b.snapshot t u) ∧
      ∃ order, order.Perm (b.committed metadata) ∧
        (∀ installed, installed.Perm (b.committed metadata) →
          serial writesIn b.snapshot order
            = atOnce writesIn b.snapshot installed b.snapshot) ∧
        ∀ pre t post, order = pre ++ t :: post →
          t.program.execute (serial writesIn b.snapshot pre) = b.execution t := by
  have htids : ∀ r ∈ rs, 0 < r.tid ∧ r.tid < 2 ^ 20 := by
    intro r hr
    obtain ⟨t, ht, hmem⟩ := mem_flatMap.mp (hrs.mem_iff.mp hr)
    rw [tid_of_mem_reserve hmem]
    exact ⟨hstart.pos t ht, hstart.lt t ht⟩
  obtain ⟨metadata, hreserve, hreserved⟩ :=
    (Reserved.start b old).reserveAll hstart.epoch_lt hstart.stale htids
  have hall : b.Analyzed metadata := by
    refine ⟨fun t ht r hr => hreserved.holds r ?_⟩
    exact hrs.mem_iff.mpr (mem_flatMap.mpr ⟨t, ht, hr⟩)
  have hdisjoint : ∀ t ∈ b.committed metadata, ∀ u ∈ b.committed metadata, t ≠ u →
      Disjoint writesIn b.snapshot t u :=
    fun t ht u hu hne k hk => disjoint_of_commits hstart hall hsi ht hu hne hk
  have hout : ReadsAll (fun (t : Transaction κ α) db => t.program.execute db)
      (fun t db => (t.program.execute db).readSet.map Prod.fst) :=
    fun t _ _ h => t.program.execute_congr h
  have hwrites : ReadsAll (writesIn (κ := κ) (α := α))
      (fun t db => (t.program.execute db).readSet.map Prod.fst) :=
    fun t _ _ h => congrArg Execution.writeSet (t.program.execute_congr h)
  obtain ⟨hserial, hsame⟩ :=
    serial_eq_atOnce hout hwrites (serialOrder_unread hstart hall hsi)
  refine ⟨metadata, hreserve, hdisjoint, b.serialOrder metadata, serialOrder_perm, ?_, hsame⟩
  intro installed hinstalled
  rw [hserial]
  refine atOnce_perm (serialOrder_perm.trans hinstalled.symm) ?_ b.snapshot
  intro t ht u hu
  by_cases hne : t = u
  · exact .inl hne
  · exact .inr (hdisjoint t (serialOrder_perm.mem_iff.mp ht) u (serialOrder_perm.mem_iff.mp hu) hne)

section Example

-- The transaction with the larger tid reads the row that the other one writes and goes first.
def reordered : Batch Nat Nat where
  context := ⟨true, true, false⟩
  has_master_partition := fun coordinator key => coordinator == key % 2
  epoch := 1
  snapshot := id
  transactions := [⟨1, 0, .search 0 fun v => .update 1 (v + 10) .ready⟩,
    ⟨2, 1, .search 1 fun v => .update 2 (v + 20) .ready⟩]

theorem starts_reordered : reordered.Starts fun _ => 0 where
  epoch_lt := by decide
  stale := fun _ => by decide
  nodup := by decide
  pos := by decide
  lt := by decide
  index := by simp [reordered, execution, Program.execute]

theorem reordered_is_serializable :
    ∃ metadata order, reordered.reserveAll (fun _ => 0)
        (reordered.transactions.flatMap reordered.reserve_transaction) = some metadata ∧
      order.Perm (reordered.committed metadata) ∧
      serial writesIn id order
        = atOnce writesIn id (reordered.committed metadata) id := by
  obtain ⟨metadata, hreserve, -, order, hperm, hserial, -⟩ :=
    batch_is_serializable reordered (fun _ => 0) starts_reordered rfl _ (.refl _)
  exact ⟨metadata, order, hreserve, hperm, hserial _ (.refl _)⟩

-- Two transactions that write row 0, with the given tids and epoch.
def twoWriters (epoch : BitVec 32) (id₁ id₂ : Nat) : Batch Nat Nat where
  context := ⟨false, false, false⟩
  has_master_partition := fun _ _ => true
  epoch := epoch
  snapshot := id
  transactions := [⟨id₁, 0, .update 0 1 .ready⟩, ⟨id₂, 0, .update 0 2 .ready⟩]

def BothCommit (b : Batch Nat Nat) : Prop :=
  (b.transactions.map Transaction.id).Nodup ∧ (∀ t ∈ b.transactions, 0 < t.id) ∧
    ∃ metadata, b.reserveAll (fun _ => 0) (b.transactions.flatMap b.reserve_transaction)
        = some metadata ∧
      ∀ t ∈ b.transactions, b.commits metadata t = true ∧
        0 ∈ (b.execution t).writeSet.map Prod.fst

theorem bothCommit_of_any {b : Batch Nat Nat}
    (hids : (b.transactions.map Transaction.id).Nodup ∧ ∀ t ∈ b.transactions, 0 < t.id)
    (hany : (b.reserveAll (fun _ => 0) (b.transactions.flatMap b.reserve_transaction)).any
      (fun metadata => decide (∀ t ∈ b.transactions, b.commits metadata t = true ∧
        0 ∈ (b.execution t).writeSet.map Prod.fst)) = true) : b.BothCommit := by
  obtain ⟨metadata, hreserve, hall⟩ := (Option.any_eq_true _ _).mp hany
  exact ⟨hids.1, hids.2, metadata, hreserve, of_decide_eq_true hall⟩

-- The low bits of the tids are zero, as if nobody had written the row. In an epoch that does
-- not fit, each reservation starts the row anew and no check finds its own epoch.
theorem both_writers_commit :
    (twoWriters 1 (2 ^ 20) (2 ^ 21)).BothCommit ∧ (twoWriters (2 ^ 24) 1 2).BothCommit :=
  ⟨bothCommit_of_any (by decide +kernel) (by decide +kernel),
    bothCommit_of_any (by decide +kernel) (by decide +kernel)⟩

end Example

end Batch

end Tigon.Aria
