import Mathlib.Data.List.Flatten
import Mathlib.Data.List.Pairwise
import Tigon.Calvin.Executor.Grants

namespace Tigon.Calvin

open List CalvinTransaction TransactionLockRequest

open Tigon.Library Tigon.Protocol Tigon.Protocol.LockWord

variable {config : Config} {κ : Type}

section Requests

variable (home target : Coordinator config) (txn : CalvinTransaction κ)

omit txn in
theorem addReadKey_eq (tid : Nat) (sofar : Coordinator config → List (CalvinRWKey κ))
    (key : CalvinRWKey κ) :
    addReadKey home tid (fun c => ⟨home, tid, sofar c⟩) key = fun c => ⟨home, tid, sofar c
      ++ if master_coordinator config home key.row.partition_id = c then [key] else []⟩ := by
  funext c
  unfold addReadKey
  by_cases hc : c = master_coordinator config home key.row.partition_id
  · subst hc
    rw [Function.update_self, if_pos rfl]
    split
    · rename_i hempty
      have hnil : sofar (master_coordinator config home key.row.partition_id) = [] :=
        isEmpty_iff.mp hempty
      rw [hnil]
      rfl
    · rfl
  · rw [Function.update_of_ne hc, if_neg (Ne.symm hc), append_nil]

theorem analyze_active_coordinator_spec :
    analyze_active_coordinator home txn target = ⟨home, txn.transaction_id,
      txn.readSet.filter fun key =>
        decide (master_coordinator config home key.row.partition_id = target)⟩ := by
  suffices hfold : ∀ (keys : List (CalvinRWKey κ))
      (sofar : Coordinator config → List (CalvinRWKey κ)),
      keys.foldl (addReadKey home txn.transaction_id)
          (fun c => ⟨home, txn.transaction_id, sofar c⟩) target
        = ⟨home, txn.transaction_id, sofar target ++ keys.filter fun key =>
            decide (master_coordinator config home key.row.partition_id = target)⟩ by
    exact hfold txn.readSet fun _ => []
  intro keys
  induction keys with
  | nil => simp
  | cons key keys ih =>
    intro sofar
    rw [foldl_cons, addReadKey_eq, ih]
    by_cases htarget : master_coordinator config home key.row.partition_id = target
    · simp [htarget]
    · simp [htarget]

def delivered : TransactionLockRequest config κ :=
  (if home = target then id else lock_request_handler)
    (analyze_active_coordinator home txn target)

variable {home target txn}

@[simp]
theorem tid_delivered : (delivered home target txn).tid = txn.transaction_id := by
  rw [delivered, analyze_active_coordinator_spec]
  split <;> rfl

@[simp]
theorem source_delivered : (delivered home target txn).source_coordinator = home := by
  rw [delivered, analyze_active_coordinator_spec]
  split <;> rfl

theorem not_empty_of_mem {key : CalvinRWKey κ} (hkey : key ∈ txn.readSet)
    (htarget : master_coordinator config home key.row.partition_id = target) :
    (analyze_active_coordinator home txn target).empty = false := by
  rw [analyze_active_coordinator_spec, empty, isEmpty_eq_false_iff]
  exact ne_nil_of_mem (mem_filter.mpr ⟨hkey, decide_eq_true htarget⟩)

theorem exists_key_delivered {key : CalvinRWKey κ} (hkey : key ∈ txn.readSet)
    (htarget : master_coordinator config home key.row.partition_id = target) :
    ∃ k ∈ (delivered home target txn).keys, k.row = key.row ∧
      (key.get_write_lock_bit = true → k.get_read_lock_bit = false) := by
  have hmem : key ∈ txn.readSet.filter fun key =>
      decide (master_coordinator config home key.row.partition_id = target) :=
    mem_filter.mpr ⟨hkey, decide_eq_true htarget⟩
  rw [delivered, analyze_active_coordinator_spec]
  split
  · refine ⟨key, hmem, rfl, fun hwrite => ?_⟩
    rw [CalvinRWKey.get_write_lock_bit, beq_iff_eq] at hwrite
    rw [CalvinRWKey.get_read_lock_bit, hwrite]
    rfl
  · refine ⟨_, mem_map_of_mem hmem, rfl, fun hwrite => ?_⟩
    rw [hwrite]
    rfl

end Requests

namespace Cluster

def batch (cluster : Cluster config κ) : List (Coordinator config × CalvinTransaction κ) :=
  (List.finRange config.coordinator_num).flatMap fun home =>
    (cluster home).transactions.map fun txn => (home, txn)

def DistinctTids (cluster : Cluster config κ) : Prop :=
  (cluster.batch.map fun entry => entry.2.transaction_id).Nodup

variable {cluster : Cluster config κ} {home home' target : Coordinator config}
  {txn txn' : CalvinTransaction κ}

theorem mem_batch : (home, txn) ∈ cluster.batch ↔ txn ∈ (cluster home).transactions := by
  simp [batch]

theorem DistinctTids.eq (h : cluster.DistinctTids) (htxn : txn ∈ (cluster home).transactions)
    (htxn' : txn' ∈ (cluster home').transactions)
    (htid : txn.transaction_id = txn'.transaction_id) : home = home' ∧ txn = txn' :=
  Prod.mk.inj (inj_on_of_nodup_map h (mem_batch.mpr htxn) (mem_batch.mpr htxn') htid)

def asks (target : Coordinator config) (entry : Coordinator config × CalvinTransaction κ) : Bool :=
  entry.2.active && !(analyze_active_coordinator entry.1 entry.2 target).empty

theorem requestsTo_eq : cluster.requestsTo target
    = (cluster.batch.filter (asks target)).map fun entry => delivered entry.1 target entry.2 := by
  rw [requestsTo, batch, filter_flatMap, map_flatMap]
  refine flatMap_congr fun home _ => ?_
  rw [send_lock_requests, filter_map, filter_filter, filter_map, map_map,
    map_map]
  refine congrArg₂ List.map rfl (filter_congr fun txn _ => ?_)
  exact Bool.and_comm _ _

theorem mem_requestsTo {request : TransactionLockRequest config κ} :
    request ∈ cluster.requestsTo target ↔ ∃ home txn, txn ∈ (cluster home).transactions ∧
      asks target (home, txn) = true ∧ delivered home target txn = request := by
  simp only [requestsTo_eq, mem_map, mem_filter, Prod.exists, mem_batch, and_assoc]

theorem DistinctTids.nodup_requestsTo (h : cluster.DistinctTids) (target : Coordinator config) :
    ((cluster.requestsTo target).map tid).Nodup := by
  have htids : (cluster.requestsTo target).map tid
      = (cluster.batch.filter (asks target)).map fun entry => entry.2.transaction_id := by
    rw [requestsTo_eq, map_map]
    exact map_congr_left fun entry _ => tid_delivered
  rw [htids]
  exact List.Nodup.sublist (filter_sublist.map _) h

theorem DistinctTids.nodup_transactions (h : cluster.DistinctTids) (home : Coordinator config) :
    ((cluster home).transactions.map transaction_id).Nodup := by
  rw [DistinctTids, batch, map_flatMap] at h
  have hhome := (nodup_flatMap.mp h).1 home (mem_finRange home)
  rwa [map_map] at hhome

end Cluster

section Votes

theorem filter_eq_singleton {β : Type} {tid : β → Nat} {l : List β} {b : β}
    (hnodup : (l.map tid).Nodup) (hb : b ∈ l) :
    l.filter (fun x => decide (tid x = tid b)) = [b] := by
  induction l with
  | nil => cases hb
  | cons x l ih =>
    obtain ⟨hx, hl⟩ := nodup_cons.mp hnodup
    by_cases hxb : x = b
    · subst hxb
      have hnone : l.filter (fun y => decide (tid y = tid x)) = [] := by
        refine filter_eq_nil_iff.mpr fun y hy htid => hx ?_
        rw [← of_decide_eq_true htid]
        exact mem_map_of_mem hy
      simp [hnone]
    · rcases mem_cons.mp hb with hb | hb
      · exact absurd hb.symm hxb
      · have hne : tid x ≠ tid b := fun heq => hx (heq ▸ mem_map_of_mem hb)
        simp [hne, ih hl hb]

variable {transactions : List (CalvinTransaction κ)} {txn : CalvinTransaction κ}

theorem foldl_zipIdx_of_notMem {tid start : Nat} (idx : Nat)
    (hnone : tid ∉ transactions.map transaction_id) :
    (transactions.zipIdx start).foldl (fun idx entry =>
      if entry.1.transaction_id = tid then entry.2 else idx) idx = idx := by
  induction transactions generalizing start with
  | nil => rfl
  | cons txn transactions ih =>
    obtain ⟨hne, hrest⟩ := not_or.mp (mem_cons.not.mp hnone)
    rw [zipIdx_cons, foldl_cons, if_neg (Ne.symm hne), ih hrest]

theorem foldl_zipIdx_of_nodup {start i : Nat} (idx : Nat) (hi : i < transactions.length)
    (hnodup : (transactions.map transaction_id).Nodup) :
    (transactions.zipIdx start).foldl (fun idx entry =>
      if entry.1.transaction_id = transactions[i].transaction_id then entry.2 else idx) idx
      = start + i := by
  induction transactions generalizing start i idx with
  | nil => exact absurd hi (Nat.not_lt_zero i)
  | cons txn transactions ih =>
    obtain ⟨hfirst, hrest⟩ := nodup_cons.mp hnodup
    rw [zipIdx_cons, foldl_cons]
    cases i with
    | zero =>
      rw [getElem_cons_zero, if_pos rfl, foldl_zipIdx_of_notMem start hfirst, add_zero]
    | succ i =>
      simp only [getElem_cons_succ]
      rw [ih _ (Nat.lt_of_succ_lt_succ hi) hrest]
      omega

theorem tid_to_txn_idx_eq {i : Nat} (hi : i < transactions.length)
    (hnodup : (transactions.map transaction_id).Nodup) :
    tid_to_txn_idx transactions transactions[i].transaction_id = i :=
  (foldl_zipIdx_of_nodup 0 hi hnodup).trans (zero_add i)

theorem collect_vote_for_txn_eq {response : LockResponse config}
    (hnodup : (transactions.map transaction_id).Nodup)
    (hmem : response.tid ∈ transactions.map transaction_id) :
    collect_vote_for_txn transactions response = transactions.map fun txn =>
      { txn with votes := txn.votes ++
          if response.tid = txn.transaction_id then [response.success] else [] } := by
  obtain ⟨txn, htxn, htid⟩ := mem_map.mp hmem
  obtain ⟨i, hi, rfl⟩ := mem_iff_getElem.mp htxn
  rw [collect_vote_for_txn, ← htid, tid_to_txn_idx_eq hi hnodup]
  apply ext_getElem
  · simp
  · intro j hj _
    rw [length_modify] at hj
    rw [getElem_modify, getElem_map]
    by_cases hij : i = j
    · subst hij
      simp
    · have hne : transactions[i].transaction_id ≠ transactions[j].transaction_id := by
        intro heq
        have hidx := congrArg (tid_to_txn_idx transactions) heq
        rw [tid_to_txn_idx_eq hi hnodup, tid_to_txn_idx_eq hj hnodup] at hidx
        exact hij hidx
      simp [hij, hne]

theorem foldl_collect_vote_eq {responses : List (LockResponse config)}
    (hnodup : (transactions.map transaction_id).Nodup)
    (hmem : ∀ response ∈ responses,
      response.tid ∈ transactions.map transaction_id) :
    responses.foldl collect_vote_for_txn transactions = transactions.map fun txn =>
      { txn with votes := txn.votes ++ (responses.filter fun response =>
          decide (response.tid = txn.transaction_id)).map LockResponse.success } := by
  induction responses generalizing transactions with
  | nil => simp
  | cons response responses ih =>
    obtain ⟨hfirst, hrest⟩ := forall_mem_cons.mp hmem
    rw [foldl_cons, collect_vote_for_txn_eq hnodup hfirst]
    have hids : ∀ f : CalvinTransaction κ → List Bool,
        (transactions.map fun txn => { txn with votes := f txn }).map
          transaction_id
        = transactions.map transaction_id := by
      intro f
      rw [map_map]
      rfl
    rw [ih (by rwa [hids]) (by rwa [hids]), map_map]
    refine map_congr_left fun txn _ => ?_
    by_cases htid : response.tid = txn.transaction_id
    · simp [htid]
    · simp [htid]

end Votes

-- Two transactions conflict on a row that both name and one of them writes. Rows of different
-- replica groups are different rows, also with the same key.
def Conflict (home home' : Coordinator config) (txn txn' : CalvinTransaction κ) : Prop :=
  ∃ key ∈ txn.readSet, ∃ key' ∈ txn'.readSet, key.row = key'.row ∧
    master_coordinator config home key.row.partition_id
      = master_coordinator config home' key'.row.partition_id ∧
    (key.get_write_lock_bit = true ∨ key'.get_write_lock_bit = true)

namespace Cluster

variable [DecidableEq κ]

-- The start of a round: words are free, a request names a row in one mode and no row is
-- asked for by more readers than its word can count. Transactions that are not scheduled
-- have their votes cleared at the end of a round.
structure Ready (cluster : Cluster config κ) : Prop where
  distinct : cluster.DistinctTids
  free : ∀ c, Free (cluster c).rows
  oneMode : ∀ c, ∀ request ∈ cluster.requestsTo c, OneMode request
  reads_le : ∀ c row, ((cluster.requestsTo c).flatMap (·.keys)).countP (·.reads row) ≤ 511
  votes : ∀ c, ∀ txn ∈ (cluster c).transactions, txn.active = true → txn.votes = []

variable {network : Network config κ} {cluster : Cluster config κ}
  {c home home' target : Coordinator config} {txn txn' : CalvinTransaction κ}

def sorted (network : Network config κ) (cluster : Cluster config κ) (c : Coordinator config) :
    List (TransactionLockRequest config κ) :=
  (network.requests c (cluster.requestsTo c)).mergeSort fun lhs rhs => lhs.tid ≤ rhs.tid

omit [DecidableEq κ] in
theorem sorted_perm : (cluster.sorted network c).Perm (cluster.requestsTo c) :=
  (mergeSort_perm _ _).trans (network.requests_perm c _)

omit [DecidableEq κ] in
theorem pairwise_sorted (network : Network config κ) (cluster : Cluster config κ)
    (c : Coordinator config) :
    (cluster.sorted network c).Pairwise fun lhs rhs => lhs.tid ≤ rhs.tid := by
  have hsorted := @List.pairwise_mergeSort _
    (fun lhs rhs : TransactionLockRequest config κ => decide (lhs.tid ≤ rhs.tid))
    (by simp only [decide_eq_true_eq]; omega)
    (by simp only [Bool.or_eq_true, decide_eq_true_eq]; omega)
    (network.requests c (cluster.requestsTo c))
  exact hsorted.imp fun h => of_decide_eq_true h

structure Replies (network : Network config κ) (cluster : Cluster config κ)
    (c : Coordinator config) (flags : List Bool) : Prop where
  granted : cluster.granted network c = some ((cluster c).rows,
    ((cluster.sorted network c).zip flags).map fun request =>
      ⟨request.1.source_coordinator, request.1.tid, request.2⟩)
  length : flags.length = (cluster.sorted network c).length
  compatible : ((cluster.sorted network c).zip flags).Pairwise fun r r' =>
    r.2 = true → r'.2 = true → RequestsCompatible r.1 r'.1
  head : cluster.sorted network c ≠ [] → flags.head? = some true

theorem Ready.exists_replies (hready : cluster.Ready) (network : Network config κ)
    (c : Coordinator config) : ∃ flags, cluster.Replies network c flags := by
  have hsub := admitted_sublist [] (cluster.sorted network c)
  have hmodes : ∀ r ∈ admitted [] (cluster.sorted network c), OneMode r :=
    fun r hr => hready.oneMode c r (sorted_perm.mem_iff.mp (hsub.subset hr))
  have hcount : ∀ row, (([] : List (CalvinRWKey κ))
      ++ (admitted [] (cluster.sorted network c)).flatMap (·.keys)).countP (·.reads row)
        ≤ 511 := by
    intro row
    rw [nil_append]
    refine (hsub.flatMap (·.keys)).countP_le.trans ?_
    rw [(sorted_perm.flatMap_right _).countP_eq]
    exact hready.reads_le c row
  obtain ⟨rows', flags, hgrant, hlen, hrep, -, hpair⟩ :=
    (Represents.nil (hready.free c)).grantLocks hmodes hcount
  refine ⟨flags, ?_, hlen, hpair, ?_⟩
  · have hsorted : (network.requests c (cluster.requestsTo c)).mergeSort
        (fun lhs rhs => decide (lhs.tid ≤ rhs.tid)) = cluster.sorted network c := rfl
    rw [granted, grant_locks_and_reply]
    simp only [hsorted]
    rw [hgrant, Option.map_some, hrep.releaseLocks (hready.free c)]
  · intro hne
    obtain ⟨request, requests, hcons⟩ := exists_cons_of_ne_nil hne
    rw [hcons] at hgrant
    exact head_granted (hready.free c) hgrant

section Round

variable {flags : Coordinator config → List Bool} (hready : cluster.Ready)
  (hreplies : ∀ c, cluster.Replies network c (flags c))

def votesFrom (network : Network config κ) (cluster : Cluster config κ)
    (flags : Coordinator config → List Bool) (txn : CalvinTransaction κ)
    (c : Coordinator config) : List Bool :=
  (((cluster.sorted network c).zip (flags c)).filter fun request =>
    decide (request.1.tid = txn.transaction_id)).map Prod.snd

omit [DecidableEq κ] in
theorem map_fst_zip (hlength : (flags c).length = (cluster.sorted network c).length) :
    ((cluster.sorted network c).zip (flags c)).map Prod.fst = cluster.sorted network c :=
  List.map_fst_zip (le_of_eq hlength.symm)

include hready hreplies

theorem nodup_zip (c : Coordinator config) :
    (((cluster.sorted network c).zip (flags c)).map fun request => request.1.tid).Nodup := by
  have hfst := congrArg (List.map tid) (map_fst_zip (hreplies c).length)
  rw [map_map] at hfst
  refine (congrArg List.Nodup hfst).mpr ((sorted_perm.map _).nodup_iff.mpr ?_)
  exact hready.distinct.nodup_requestsTo c

theorem exists_votesFrom (htxn : txn ∈ (cluster home).transactions)
    (hasks : asks c (home, txn) = true) :
    ∃ flag, (delivered home c txn, flag) ∈ (cluster.sorted network c).zip (flags c) ∧
      votesFrom network cluster flags txn c = [flag] := by
  have hmem : delivered home c txn ∈ cluster.sorted network c :=
    sorted_perm.mem_iff.mpr (mem_requestsTo.mpr ⟨home, txn, htxn, hasks, rfl⟩)
  rw [← map_fst_zip (hreplies c).length] at hmem
  obtain ⟨⟨request, flag⟩, hzip, hfst⟩ := mem_map.mp hmem
  obtain rfl : request = delivered home c txn := hfst
  have hone := filter_eq_singleton (nodup_zip hready hreplies c) hzip
  rw [tid_delivered] at hone
  exact ⟨flag, hzip, by rw [votesFrom, hone]; rfl⟩

theorem asks_of_tid_eq {request : TransactionLockRequest config κ × Bool}
    (htxn : txn ∈ (cluster home).transactions)
    (hmem : request ∈ (cluster.sorted network c).zip (flags c))
    (htid : request.1.tid = txn.transaction_id) :
    asks c (home, txn) = true ∧ request.1.source_coordinator = home := by
  have hsorted : request.1 ∈ cluster.sorted network c := by
    rw [← map_fst_zip (hreplies c).length]
    exact mem_map_of_mem hmem
  obtain ⟨home', txn', htxn', hasks, heq⟩ := mem_requestsTo.mp (sorted_perm.mem_iff.mp hsorted)
  rw [← heq, tid_delivered] at htid
  obtain ⟨rfl, rfl⟩ := hready.distinct.eq htxn' htxn htid
  exact ⟨hasks, by rw [← heq, source_delivered]⟩

theorem votesFrom_eq_nil (htxn : txn ∈ (cluster home).transactions)
    (hasks : asks c (home, txn) = false) : votesFrom network cluster flags txn c = [] := by
  rw [votesFrom, filter_eq_nil_iff.mpr, map_nil]
  intro request hmem htid
  have hasked := (asks_of_tid_eq hready hreplies htxn hmem (of_decide_eq_true htid)).1
  exact absurd (hasks.symm.trans hasked) (by decide)

omit hready hreplies [DecidableEq κ] in
theorem countP_eq_length_flatMap {p : Coordinator config → Bool}
    {votes : Coordinator config → List Bool} (h : ∀ c, (votes c).length = if p c then 1 else 0)
    (cs : List (Coordinator config)) : cs.countP p = (cs.flatMap votes).length := by
  induction cs with
  | nil => rfl
  | cons c cs ih =>
    rw [countP_cons, flatMap_cons, length_append, h, ih, add_comm]

theorem need_vote_count_eq (htxn : txn ∈ (cluster home).transactions)
    (hactive : txn.active = true) : need_vote_count home txn
      = ((List.finRange config.coordinator_num).flatMap
          (votesFrom network cluster flags txn)).length := by
  refine countP_eq_length_flatMap (fun c => ?_) _
  have hasks : asks c (home, txn) = !(analyze_active_coordinator home txn c).empty := by
    rw [asks, hactive, Bool.true_and]
  cases hempty : (analyze_active_coordinator home txn c).empty with
  | true =>
    rw [hempty] at hasks
    rw [votesFrom_eq_nil hready hreplies htxn hasks]
    rfl
  | false =>
    rw [hempty] at hasks
    obtain ⟨flag, -, hone⟩ := exists_votesFrom hready hreplies htxn hasks
    rw [hone]
    rfl

omit hready hreplies [DecidableEq κ] in
def responsesTo (network : Network config κ) (cluster : Cluster config κ)
    (flags : Coordinator config → List Bool) (home : Coordinator config) :
    List (LockResponse config) :=
  network.responses home ((List.finRange config.coordinator_num).flatMap fun c =>
    (((cluster.sorted network c).zip (flags c)).map fun request =>
      (⟨request.1.source_coordinator, request.1.tid, request.2⟩ : LockResponse config)).filter
        fun response => response.source_coordinator = home)

def votesOn (network : Network config κ) (cluster : Cluster config κ)
    (flags : Coordinator config → List Bool) (home : Coordinator config)
    (txn : CalvinTransaction κ) : List Bool :=
  ((responsesTo network cluster flags home).filter fun response =>
    decide (response.tid = txn.transaction_id)).map LockResponse.success

theorem votesOn_perm (htxn : txn ∈ (cluster home).transactions) :
    (votesOn network cluster flags home txn).Perm
      ((List.finRange config.coordinator_num).flatMap (votesFrom network cluster flags txn)) := by
  refine (((network.responses_perm home _).filter _).map _).trans (List.Perm.of_eq ?_)
  rw [filter_flatMap, map_flatMap]
  refine flatMap_congr fun c _ => ?_
  rw [filter_filter, filter_map, map_map, votesFrom]
  refine congrArg (List.map Prod.snd) (filter_congr fun request hmem => ?_)
  by_cases htid : request.1.tid = txn.transaction_id
  · have hsource := (asks_of_tid_eq hready hreplies htxn hmem htid).2
    simp [htid, hsource]
  · simp [htid]

theorem hasAllVotes_iff (htxn : txn ∈ (cluster home).transactions) (hactive : txn.active = true) :
    hasAllVotes home { txn with votes := txn.votes ++ votesOn network cluster flags home txn } =
      true
      ↔ ∀ c, ∀ flag ∈ votesFrom network cluster flags txn c, flag = true := by
  have hgood : good_vote_count
      { txn with votes := txn.votes ++ votesOn network cluster flags home txn }
      = ((List.finRange config.coordinator_num).flatMap
          (votesFrom network cluster flags txn)).countP id := by
    rw [good_vote_count, hready.votes home txn htxn hactive, nil_append]
    exact (votesOn_perm hready hreplies htxn).countP_eq id
  have hneed : need_vote_count home
      { txn with votes := txn.votes ++ votesOn network cluster flags home txn }
      = need_vote_count home txn := rfl
  rw [hasAllVotes, beq_iff_eq, hgood, hneed, need_vote_count_eq hready hreplies htxn hactive,
    countP_eq_length]
  simp only [mem_flatMap, mem_finRange, true_and, id]
  exact ⟨fun h c flag hflag => h flag ⟨c, hflag⟩, fun h flag ⟨c, hflag⟩ => h c flag hflag⟩

omit hready in
theorem round_eq : cluster.round network = some
    (fun home => (schedule_transactions home ((responsesTo network cluster flags home).foldl
        collect_vote_for_txn (cluster home).transactions)).1,
      fun home => ⟨(schedule_transactions home ((responsesTo network cluster flags home).foldl
        collect_vote_for_txn (cluster home).transactions)).2, (cluster home).rows⟩) := by
  have hsome : ∀ c, (cluster.granted network c).isSome := by
    intro c
    rw [(hreplies c).granted]
    rfl
  have hget : ∀ c, (cluster.granted network c).get (hsome c) = ((cluster c).rows,
      ((cluster.sorted network c).zip (flags c)).map fun request =>
        ⟨request.1.source_coordinator, request.1.tid, request.2⟩) :=
    fun c => Option.get_of_eq_some _ (hreplies c).granted
  rw [round, dif_pos hsome]
  simp only [hget]
  rfl

theorem collected_eq (home : Coordinator config) :
    (responsesTo network cluster flags home).foldl collect_vote_for_txn
        (cluster home).transactions
      = (cluster home).transactions.map fun txn =>
        { txn with votes := txn.votes ++ votesOn network cluster flags home txn } := by
  refine foldl_collect_vote_eq (hready.distinct.nodup_transactions home) ?_
  intro response hresponse
  rw [responsesTo, (network.responses_perm home _).mem_iff] at hresponse
  obtain ⟨c, -, hmem⟩ := mem_flatMap.mp hresponse
  obtain ⟨hmem, hhome⟩ := mem_filter.mp hmem
  obtain ⟨request, hzip, rfl⟩ := mem_map.mp hmem
  have hsorted : request.1 ∈ cluster.sorted network c := by
    rw [← map_fst_zip (hreplies c).length]
    exact mem_map_of_mem hzip
  obtain ⟨home', txn, htxn, -, heq⟩ := mem_requestsTo.mp (sorted_perm.mem_iff.mp hsorted)
  have hsource : request.1.source_coordinator = home := of_decide_eq_true hhome
  rw [← heq, source_delivered] at hsource
  subst hsource
  rw [← heq, tid_delivered]
  exact mem_map_of_mem htxn

-- A transaction is scheduled exactly when every coordinator has granted its request.
theorem mem_scheduled_iff {txn' : CalvinTransaction κ} :
    txn' ∈ (schedule_transactions home ((responsesTo network cluster flags home).foldl
        collect_vote_for_txn (cluster home).transactions)).1 ↔
      ∃ txn ∈ (cluster home).transactions, txn.active = true ∧
        (∀ c, ∀ flag ∈ votesFrom network cluster flags txn c, flag = true) ∧
        { txn with votes := txn.votes ++ votesOn network cluster flags home txn } = txn' := by
  rw [collected_eq hready hreplies, schedule_transactions]
  simp only [mem_filter, mem_map, Bool.and_eq_true]
  constructor
  · rintro ⟨⟨txn, htxn, rfl⟩, hactive, hvotes⟩
    exact ⟨txn, htxn, hactive, (hasAllVotes_iff hready hreplies htxn hactive).mp hvotes, rfl⟩
  · rintro ⟨txn, htxn, hactive, hvotes, rfl⟩
    exact ⟨⟨txn, htxn, rfl⟩, hactive, (hasAllVotes_iff hready hreplies htxn hactive).mpr hvotes⟩

-- Two transactions that have all their votes do not conflict: the master of the row has
-- granted both requests.
theorem not_conflict (htxn : txn ∈ (cluster home).transactions)
    (htxn' : txn' ∈ (cluster home').transactions) (hactive : txn.active = true)
    (hactive' : txn'.active = true) (hne : txn.transaction_id ≠ txn'.transaction_id)
    (hvotes : ∀ c, ∀ flag ∈ votesFrom network cluster flags txn c, flag = true)
    (hvotes' : ∀ c, ∀ flag ∈ votesFrom network cluster flags txn' c, flag = true) :
    ¬ Conflict home home' txn txn' := by
  rintro ⟨key, hkey, key', hkey', hrow, hmaster, hwrite⟩
  obtain ⟨c, hc⟩ : ∃ c, master_coordinator config home key.row.partition_id = c := ⟨_, rfl⟩
  have hasks : asks c (home, txn) = true := by
    rw [asks, hactive, not_empty_of_mem hkey hc]
    rfl
  have hasks' : asks c (home', txn') = true := by
    rw [asks, hactive', not_empty_of_mem hkey' (hmaster.symm.trans hc)]
    rfl
  obtain ⟨flag, hzip, hone⟩ := exists_votesFrom hready hreplies htxn hasks
  obtain ⟨flag', hzip', hone'⟩ := exists_votesFrom hready hreplies htxn' hasks'
  have hflag := hvotes c flag (by simp [hone])
  have hflag' := hvotes' c flag' (by simp [hone'])
  have hdiff : (delivered home c txn, flag) ≠ (delivered home' c txn', flag') := by
    intro heq
    have htids := congrArg (fun request => request.1.tid) heq
    simp only [tid_delivered] at htids
    exact hne htids
  have hsymm : Std.Symm fun r r' : TransactionLockRequest config κ × Bool =>
      r.2 = true → r'.2 = true → RequestsCompatible r.1 r'.1 :=
    ⟨fun r r' h hr' hr k hk k' hk' heq => (h hr hr' k' hk' k hk heq.symm).symm⟩
  have hcompat := (hreplies c).compatible.forall hzip hzip' hdiff hflag hflag'
  obtain ⟨k, hk, hkrow, hkwrite⟩ := exists_key_delivered hkey hc
  obtain ⟨k', hk', hkrow', hkwrite'⟩ := exists_key_delivered hkey' (hmaster.symm.trans hc)
  obtain ⟨hread, hread'⟩ := hcompat k hk k' hk' (hkrow.trans (hrow.trans hkrow'.symm))
  rcases hwrite with hwrite | hwrite
  · exact absurd (hread.symm.trans (hkwrite hwrite)) (by decide)
  · exact absurd (hread'.symm.trans (hkwrite' hwrite)) (by decide)

theorem granted_of_least (htxn : txn ∈ (cluster home).transactions)
    (hleast : ∀ home', ∀ txn' ∈ (cluster home').transactions, txn'.active = true →
      txn.transaction_id ≤ txn'.transaction_id) :
    ∀ c, ∀ flag ∈ votesFrom network cluster flags txn c, flag = true := by
  intro c flag hflag
  cases hasks : asks c (home, txn) with
  | false =>
    rw [votesFrom_eq_nil hready hreplies htxn hasks] at hflag
    cases hflag
  | true =>
    obtain ⟨flag', hzip, hone⟩ := exists_votesFrom hready hreplies htxn hasks
    rw [hone, mem_singleton] at hflag
    subst hflag
    have hmem : delivered home c txn ∈ cluster.sorted network c :=
      (of_mem_zip hzip).1
    obtain ⟨first, rest, hsorted⟩ := exists_cons_of_ne_nil (ne_nil_of_mem hmem)
    obtain ⟨more, hflags⟩ := List.head?_eq_some_iff.mp
      ((hreplies c).head (ne_nil_of_mem hmem))
    have hfirst : (first, true) ∈ (cluster.sorted network c).zip (flags c) := by
      rw [hsorted, hflags]
      exact mem_cons_self
    have hle : first.tid ≤ txn.transaction_id := by
      have hpair := pairwise_sorted network cluster c
      rw [hsorted] at hpair hmem
      rcases mem_cons.mp hmem with heq | hrest
      · rw [← heq, tid_delivered]
      · have hbefore := (pairwise_cons.mp hpair).1 _ hrest
        rwa [tid_delivered] at hbefore
    have hge : txn.transaction_id ≤ first.tid := by
      have hin : first ∈ cluster.requestsTo c :=
        sorted_perm.mem_iff.mp (of_mem_zip hfirst).1
      obtain ⟨home', txn', htxn', hasks', rfl⟩ := mem_requestsTo.mp hin
      rw [tid_delivered]
      exact hleast home' txn' htxn' ((Bool.and_eq_true _ _).mp hasks').1
    have htid : (delivered home c txn).tid = first.tid := tid_delivered.trans (le_antisymm hge hle)
    have hsame := inj_on_of_nodup_map (nodup_zip hready hreplies c) hzip hfirst htid
    exact (Prod.mk.inj hsame).2

end Round

-- A round comes to its end; the transactions it schedules do not conflict, wherever they
-- come from, and the active one with the smallest tid is one of them.
theorem round_schedules_conflict_free (network : Network config κ) (hready : cluster.Ready) :
    ∃ scheduled cluster', cluster.round network = some (scheduled, cluster') ∧
      (∀ home home' txn txn', txn ∈ scheduled home → txn' ∈ scheduled home' →
        txn.transaction_id ≠ txn'.transaction_id → ¬ Conflict home home' txn txn') ∧
      ∀ home, ∀ txn ∈ (cluster home).transactions, txn.active = true →
        (∀ home', ∀ txn' ∈ (cluster home').transactions, txn'.active = true →
          txn.transaction_id ≤ txn'.transaction_id) →
        ∃ txn' ∈ scheduled home, txn'.transaction_id = txn.transaction_id := by
  choose flags hreplies using hready.exists_replies network
  refine ⟨_, _, round_eq hreplies, ?_, ?_⟩
  · intro home home' txn txn' htxn htxn' hne
    obtain ⟨txn, hmem, hactive, hvotes, rfl⟩ := (mem_scheduled_iff hready hreplies).mp htxn
    obtain ⟨txn', hmem', hactive', hvotes', rfl⟩ := (mem_scheduled_iff hready hreplies).mp htxn'
    have hfree := not_conflict hready hreplies hmem hmem' hactive hactive' hne hvotes hvotes'
    exact hfree
  · intro home txn htxn hactive hleast
    exact ⟨_, (mem_scheduled_iff hready hreplies).mpr ⟨txn, htxn, hactive,
      granted_of_least hready hreplies htxn hleast, rfl⟩, rfl⟩

section Example

def twoNodes : Config := ⟨[2], by decide⟩

-- Both want to write row 0 of partition 1, which the second node is master of.
def twoWriters : Cluster twoNodes Nat := fun c =>
  ⟨[{ transaction_id := 10 - c.val, readSet := [⟨⟨0, 1, 0⟩, .write_lock⟩], readSet_ne := by simp }],
    fun _ => 0⟩

theorem twoWriters_ready : twoWriters.Ready where
  distinct := by unfold DistinctTids; decide
  free := fun _ _ => by
    change is_read_locked 0 = false ∧ is_write_locked 0 = false
    decide
  oneMode := by decide
  reads_le := fun c row => countP_le_length.trans (by revert c; decide)
  votes := by decide

def inOrder : Network twoNodes Nat :=
  ⟨fun _ sent => sent, fun _ sent => .refl sent, fun _ sent => sent, fun _ sent => .refl sent⟩

theorem round_of_twoWriters : ∃ scheduled cluster',
    twoWriters.round inOrder = some (scheduled, cluster') ∧
      ∃ txn ∈ scheduled ⟨1, by decide⟩, txn.transaction_id = 9 := by
  obtain ⟨scheduled, cluster', hround, -, hleast⟩ :=
    round_schedules_conflict_free inOrder twoWriters_ready
  exact ⟨scheduled, cluster', hround,
    hleast ⟨1, by decide⟩ _ mem_cons_self (by decide) (by decide)⟩

end Example

theorem round_gives_back (network : Network config κ) (hready : cluster.Ready)
    {scheduled : Coordinator config → List (CalvinTransaction κ)} {cluster' : Cluster config κ}
    (hround : cluster.round network = some (scheduled, cluster')) (home : Coordinator config) :
    (cluster' home).rows = (cluster home).rows ∧
      ∀ txn ∈ (cluster' home).transactions, txn.active = true → txn ∉ scheduled home →
        txn.votes = [] := by
  choose flags hreplies using hready.exists_replies network
  rw [round_eq hreplies] at hround
  obtain ⟨rfl, rfl⟩ := Prod.mk.inj (Option.some.inj hround)
  refine ⟨rfl, fun txn htxn hactive hnot => ?_⟩
  obtain ⟨txn₀, hmem, rfl⟩ := mem_map.mp htxn
  by_cases hvotes : (txn₀.active && !hasAllVotes home txn₀) = true
  · rw [if_pos hvotes]
  · rw [if_neg hvotes] at hactive hnot
    refine absurd (mem_filter.mpr ⟨hmem, ?_⟩) hnot
    simpa [hactive] using hvotes

end Cluster

end Tigon.Calvin
