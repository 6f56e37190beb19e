import Tigon.TwoPLPasha.GroupCommit

namespace Tigon.TwoPLPasha

open Function List Option

open Tigon.Common Tigon.Library

theorem txn_of_mem_commitRecords {τ : Type} {txn : τ} {redo : List Nat} {commit_size : Nat}
    {r : LogRecord τ} (h : r ∈ commitRecords txn redo commit_size) : r.txn = txn := by
  rcases mem_append.mp h with h | h
  · obtain ⟨i, hi, rfl⟩ := mem_mapIdx.mp h
    rfl
  · split at h
    · cases h
    · rw [mem_singleton.mp h]

namespace GroupCommit

variable {W ρ : Type} {s t : GroupCommit W ρ}

def unsynced (s : GroupCommit W ρ) (w : W) : List (LogRecord (W × Nat)) :=
  (s.slave w).unsynced ++ (s.worker w).toLog

def Durable (s : GroupCommit W ρ) (txn : W × Nat) : Prop := ∀ r ∈ s.records txn, r ∈ s.disk

def Started (s : GroupCommit W ρ) (txn : W × Nat) : Prop := txn.2 < (s.worker txn.1).next

-- A row that another worker's transaction wrote last is locked only when that transaction
-- is durable.
def ReadsDurable (s : GroupCommit W ρ) : GroupLabel W ρ → Prop
  | .lock w row _ => ∀ txn ∈ s.writer row, txn.1 ≠ w → s.Durable txn
  | _ => True

structure RecoverInv (s : GroupCommit W ρ) : Prop where
  idle : ∀ w, (∀ txn written, (s.worker w).phase ≠ .logging txn written) →
    (s.worker w).toLog = []
  current : ∀ w txn written, (s.worker w).phase = .logging txn written →
    txn < (s.worker w).next
  sorted : ∀ w, (s.unsynced w).Pairwise fun r r' => r.txn.2 ≤ r'.txn.2
  own : ∀ w, ∀ r ∈ s.unsynced w, r.txn.1 = w ∧ s.Started r.txn
  synced : ∀ r ∈ s.disk, s.Started r.txn ∧ ∀ r' ∈ s.unsynced r.txn.1, r.txn.2 ≤ r'.txn.2
  complete : ∀ txn, ∀ r ∈ s.records txn, r.txn = txn ∧ (r ∈ s.disk ∨ r ∈ s.unsynced txn.1)
  fresh : ∀ txn, ¬s.Started txn → s.records txn = [] ∧ s.readsFrom txn = []
  writers : ∀ row, ∀ txn ∈ s.writer row, s.Started txn
  reads : ∀ w, ∀ txn ∈ (s.worker w).reads, s.Started txn ∧ (txn.1 = w ∨ s.Durable txn)
  from_older : ∀ txn, ∀ txn' ∈ s.readsFrom txn, s.Started txn' ∧
    (txn'.1 = txn.1 ∧ txn'.2 < txn.2 ∨ s.Durable txn')

theorem RecoverInv.durable_of_readsFrom (hinv : RecoverInv s) {txn txn' : W × Nat}
    {r : LogRecord (W × Nat)} (hr : r ∈ s.disk) (htxn : r.txn = txn)
    (hread : txn' ∈ s.readsFrom txn) : s.Durable txn' := by
  obtain ⟨-, ⟨hworker, hlt⟩ | hdurable⟩ := hinv.from_older txn txn' hread
  · intro r' hr'
    obtain ⟨htxn', hdisk | hunsynced⟩ := hinv.complete txn' r' hr'
    · exact hdisk
    · -- an unsynced record of the worker belongs to no earlier transaction
      subst htxn
      rw [hworker] at hunsynced
      have hle := (hinv.synced r hr).2 r' hunsynced
      rw [htxn'] at hle
      omega
  · exact hdurable

theorem recoverInv_start : RecoverInv (start : GroupCommit W ρ) where
  idle := fun _ _ => rfl
  current := nofun
  sorted := fun _ => .nil
  own := nofun
  synced := nofun
  complete := nofun
  fresh := fun _ _ => ⟨rfl, rfl⟩
  writers := nofun
  reads := nofun
  from_older := nofun

theorem recoverInv_frame (hinv : RecoverInv s) (hdisk : t.disk = s.disk)
    (hrecords : t.records = s.records) (hfrom : t.readsFrom = s.readsFrom)
    (hnext : ∀ w, (t.worker w).next = (s.worker w).next)
    (hunsynced : ∀ w, t.unsynced w = s.unsynced w)
    (hidle : ∀ w, (∀ txn written, (t.worker w).phase ≠ .logging txn written) →
      (t.worker w).toLog = [])
    (hcurrent : ∀ w txn written, (t.worker w).phase = .logging txn written →
      txn < (s.worker w).next)
    (hwriters : ∀ row, ∀ txn ∈ t.writer row, s.Started txn)
    (hreads : ∀ w, ∀ txn ∈ (t.worker w).reads, s.Started txn ∧ (txn.1 = w ∨ s.Durable txn)) :
    RecoverInv t := by
  have hstarted : ∀ txn, t.Started txn ↔ s.Started txn := by
    intro txn
    rw [Started, Started, hnext]
  have hdurable : ∀ txn, t.Durable txn ↔ s.Durable txn := by
    intro txn
    rw [Durable, Durable, hrecords, hdisk]
  refine ⟨hidle, ?_, ?_, ?_, ?_, ?_, ?_, ?_, ?_, ?_⟩
  · intro w txn written h
    rw [hnext]
    exact hcurrent w txn written h
  · intro w
    rw [hunsynced]
    exact hinv.sorted w
  · intro w r hr
    rw [hunsynced] at hr
    rw [hstarted]
    exact hinv.own w r hr
  · intro r hr
    rw [hdisk] at hr
    rw [hstarted, hunsynced]
    exact hinv.synced r hr
  · intro txn r hr
    rw [hrecords] at hr
    rw [hdisk, hunsynced]
    exact hinv.complete txn r hr
  · intro txn h
    rw [hstarted] at h
    rw [hrecords, hfrom]
    exact hinv.fresh txn h
  · intro row txn h
    rw [hstarted]
    exact hwriters row txn h
  · intro w txn h
    rw [hstarted, hdurable]
    exact hreads w txn h
  · intro txn txn' h
    rw [hfrom] at h
    rw [hstarted, hdurable]
    exact hinv.from_older txn txn' h

variable [DecidableEq W] {w : W}

theorem recoverInv_worker (hinv : RecoverInv s) {x : GroupWorker W ρ}
    (hworker : t.worker = update s.worker w x) (hdisk : t.disk = s.disk)
    (hrecords : t.records = s.records) (hfrom : t.readsFrom = s.readsFrom)
    (hslave : ∀ w', w' ≠ w → t.slave w' = s.slave w') (hnext : x.next = (s.worker w).next)
    (hunsynced : (t.slave w).unsynced ++ x.toLog = s.unsynced w)
    (hidle : (∀ txn written, x.phase ≠ .logging txn written) → x.toLog = [])
    (hcurrent : ∀ txn written, x.phase = .logging txn written → txn < (s.worker w).next)
    (hwriters : ∀ row, ∀ txn ∈ t.writer row, s.Started txn)
    (hreads : ∀ txn ∈ x.reads, s.Started txn ∧ (txn.1 = w ∨ s.Durable txn)) : RecoverInv t := by
  obtain ⟨hself, hother⟩ := Function.eq_update_iff.mp hworker
  refine recoverInv_frame hinv hdisk hrecords hfrom ?_ ?_ ?_ ?_ hwriters ?_
  all_goals
    intro w'
    by_cases hw : w' = w
  · subst hw
    rw [hself, hnext]
  · rw [hother w' hw]
  · subst hw
    rw [unsynced, hself, hunsynced]
  · rw [unsynced, unsynced, hother w' hw, hslave w' hw]
  · subst hw
    rw [hself]
    exact hidle
  · rw [hother w' hw]
    exact hinv.idle w'
  · subst hw
    rw [hself]
    exact hcurrent
  · rw [hother w' hw]
    exact hinv.current w'
  · subst hw
    rw [hself]
    exact hreads
  · rw [hother w' hw]
    exact hinv.reads w'

section Commit

variable {w w' : W} {redo : List Nat} {commit_size : Nat} {written : List ρ} {txn : W × Nat}

theorem worker_commit_self : (s.commit w redo commit_size written).worker w = { s.worker w with
    next := (s.worker w).next + 1
    phase := .logging (s.worker w).next written
    toLog := commitRecords (w, (s.worker w).next) redo commit_size } :=
  update_self ..

theorem worker_commit_of_ne (hw : w' ≠ w) :
    (s.commit w redo commit_size written).worker w' = s.worker w' :=
  update_of_ne hw ..

theorem reads_commit (w' : W) :
    ((s.commit w redo commit_size written).worker w').reads = (s.worker w').reads := by
  by_cases hw : w' = w
  · subst hw
    rw [worker_commit_self]
  · rw [worker_commit_of_ne hw]

theorem started_commit (h : s.Started txn) : (s.commit w redo commit_size written).Started txn := by
  rw [Started] at h ⊢
  by_cases hw : txn.1 = w
  · rw [hw] at h ⊢
    rw [worker_commit_self]
    exact Nat.lt_succ_of_lt h
  · rw [worker_commit_of_ne hw]
    exact h

theorem started_commit_self :
    (s.commit w redo commit_size written).Started (w, (s.worker w).next) := by
  rw [Started, worker_commit_self]
  exact Nat.lt_succ_self _

theorem records_commit_of_ne (hne : txn ≠ (w, (s.worker w).next)) :
    (s.commit w redo commit_size written).records txn = s.records txn :=
  update_of_ne hne ..

theorem readsFrom_commit_of_ne (hne : txn ≠ (w, (s.worker w).next)) :
    (s.commit w redo commit_size written).readsFrom txn = s.readsFrom txn :=
  update_of_ne hne ..

theorem durable_commit (h : s.Started txn) (hdurable : s.Durable txn) :
    (s.commit w redo commit_size written).Durable txn := by
  have hne : txn ≠ (w, (s.worker w).next) := by
    rintro rfl
    exact lt_irrefl _ h
  intro r hr
  rw [records_commit_of_ne hne] at hr
  exact hdurable r hr

theorem RecoverInv.unsynced_commit (hinv : RecoverInv s) (hphase : (s.worker w).phase = .running) :
    (s.commit w redo commit_size written).unsynced w =
      s.unsynced w ++ commitRecords (w, (s.worker w).next) redo commit_size := by
  have hidle := hinv.idle w (by rw [hphase]; nofun)
  rw [unsynced, unsynced, worker_commit_self, hidle, append_nil]
  rfl

theorem unsynced_commit_of_ne (hw : w' ≠ w) :
    (s.commit w redo commit_size written).unsynced w' = s.unsynced w' := by
  rw [unsynced, unsynced, worker_commit_of_ne hw]
  rfl

section

variable (hinv : RecoverInv s) (hphase : (s.worker w).phase = .running)

include hinv hphase

theorem RecoverInv.sorted_commit :
    ((s.commit w redo commit_size written).unsynced w).Pairwise fun r r' => r.txn.2 ≤ r'.txn.2 := by
  rw [hinv.unsynced_commit hphase, pairwise_append]
  refine ⟨hinv.sorted w, ?_, ?_⟩
  · refine List.Pairwise.imp_of_mem ?_ (pairwise_of_forall fun _ _ => trivial)
    intro r r' hr hr' _
    rw [txn_of_mem_commitRecords hr, txn_of_mem_commitRecords hr']
  · intro r hr r' hr'
    obtain ⟨hworker, hlt⟩ := hinv.own w r hr
    rw [txn_of_mem_commitRecords hr']
    rw [Started, hworker] at hlt
    exact le_of_lt hlt

theorem RecoverInv.synced_commit {r r' : LogRecord (W × Nat)} (hr : r ∈ s.disk)
    (hr' : r' ∈ (s.commit w redo commit_size written).unsynced r.txn.1) : r.txn.2 ≤ r'.txn.2 := by
  obtain ⟨hlt, hle⟩ := hinv.synced r hr
  by_cases hw : r.txn.1 = w
  · rw [hw, hinv.unsynced_commit hphase] at hr'
    rcases mem_append.mp hr' with hr' | hr'
    · exact hle r' (hw ▸ hr')
    · rw [Started, hw] at hlt
      rw [txn_of_mem_commitRecords hr']
      exact le_of_lt hlt
  · rw [unsynced_commit_of_ne hw] at hr'
    exact hle r' hr'

theorem RecoverInv.complete_commit {r : LogRecord (W × Nat)}
    (hr : r ∈ (s.commit w redo commit_size written).records txn) :
    r.txn = txn ∧
      (r ∈ s.disk ∨ r ∈ (s.commit w redo commit_size written).unsynced txn.1) := by
  by_cases hne : txn = (w, (s.worker w).next)
  · subst hne
    change r ∈ update s.records _ _ _ at hr
    rw [update_self] at hr
    refine ⟨txn_of_mem_commitRecords hr, .inr ?_⟩
    rw [hinv.unsynced_commit hphase]
    exact mem_append_right _ hr
  · rw [records_commit_of_ne hne] at hr
    obtain ⟨htxn, hold⟩ := hinv.complete txn r hr
    refine ⟨htxn, hold.imp id fun hold => ?_⟩
    by_cases hw : txn.1 = w
    · rw [hw] at hold ⊢
      rw [hinv.unsynced_commit hphase]
      exact mem_append_left _ hold
    · rw [unsynced_commit_of_ne hw]
      exact hold

theorem recoverInv_commit (redo : List Nat) (commit_size : Nat) (written : List ρ) :
    RecoverInv (s.commit w redo commit_size written) := by
  refine ⟨?_, ?_, ?_, ?_, ?_, fun txn r hr => hinv.complete_commit hphase hr, ?_, ?_, ?_, ?_⟩
  · intro w' h
    by_cases hw : w' = w
    · subst hw
      rw [worker_commit_self] at h
      exact absurd rfl (h _ _)
    · rw [worker_commit_of_ne hw] at h ⊢
      exact hinv.idle w' h
  · intro w' txn written' h
    by_cases hw : w' = w
    · subst hw
      rw [worker_commit_self] at h ⊢
      cases h
      exact Nat.lt_succ_self _
    · rw [worker_commit_of_ne hw] at h ⊢
      exact hinv.current w' txn written' h
  · intro w'
    by_cases hw : w' = w
    · subst hw
      exact hinv.sorted_commit hphase
    · rw [unsynced_commit_of_ne hw]
      exact hinv.sorted w'
  · intro w' r hr
    by_cases hw : w' = w
    · subst hw
      rw [hinv.unsynced_commit hphase] at hr
      rcases mem_append.mp hr with hr | hr
      · exact ⟨(hinv.own w' r hr).1, started_commit (hinv.own w' r hr).2⟩
      · rw [txn_of_mem_commitRecords hr]
        exact ⟨rfl, started_commit_self⟩
    · rw [unsynced_commit_of_ne hw] at hr
      exact ⟨(hinv.own w' r hr).1, started_commit (hinv.own w' r hr).2⟩
  · exact fun r hr => ⟨started_commit (hinv.synced r hr).1, fun r' hr' =>
      hinv.synced_commit hphase hr hr'⟩
  · intro txn h
    have hne : txn ≠ (w, (s.worker w).next) := by
      rintro rfl
      exact h started_commit_self
    rw [records_commit_of_ne hne, readsFrom_commit_of_ne hne]
    exact hinv.fresh txn fun hold => h (started_commit hold)
  · exact fun row txn h => started_commit (hinv.writers row txn h)
  · intro w' txn h
    rw [reads_commit] at h
    obtain ⟨hlt, hread⟩ := hinv.reads w' txn h
    exact ⟨started_commit hlt, hread.imp id (durable_commit hlt)⟩
  · intro txn txn' h
    by_cases hne : txn = (w, (s.worker w).next)
    · subst hne
      change txn' ∈ update s.readsFrom _ _ _ at h
      rw [update_self] at h
      obtain ⟨hlt, hread⟩ := hinv.reads w txn' h
      refine ⟨started_commit hlt, hread.imp (fun hworker => ⟨hworker, ?_⟩) (durable_commit hlt)⟩
      rw [Started, hworker] at hlt
      exact hlt
    · rw [readsFrom_commit_of_ne hne] at h
      obtain ⟨hlt, hread⟩ := hinv.from_older txn txn' h
      exact ⟨started_commit hlt, hread.imp id (durable_commit hlt)⟩

end

end Commit

theorem recoverInv_pop (hinv : RecoverInv s) {b : LogBuffer (W × Nat)}
    {queue : List (LogBuffer (W × Nat))} (hqueue : (s.slave w).log_buffer_queue = b :: queue)
    (hslave : t.slave = update s.slave w { s.slave w with log_buffer_queue := queue })
    (hdisk : t.disk = s.disk ++ b.records) (hworker : t.worker = s.worker)
    (hrecords : t.records = s.records) (hfrom : t.readsFrom = s.readsFrom)
    (hwriter : t.writer = s.writer) : RecoverInv t := by
  have hunsynced : s.unsynced w = b.records ++ t.unsynced w := by
    have hslave' : t.slave w = { s.slave w with log_buffer_queue := queue } := by
      rw [hslave]
      exact update_self ..
    rw [unsynced, unsynced, PashaGroupCommitLoggerSlave.unsynced_cons hqueue, hslave', hworker,
      append_assoc]
  have hunsynced' : ∀ w', w' ≠ w → t.unsynced w' = s.unsynced w' := by
    intro w' hw
    rw [unsynced, unsynced, hworker, hslave, update_of_ne hw]
  have hsub : ∀ w', (t.unsynced w').Sublist (s.unsynced w') := by
    intro w'
    by_cases hw : w' = w
    · subst hw
      rw [hunsynced]
      exact sublist_append_right ..
    · rw [hunsynced' w' hw]
  have hstarted : ∀ txn, t.Started txn ↔ s.Started txn := by
    intro txn
    rw [Started, Started, hworker]
  have hdurable : ∀ {txn}, s.Durable txn → t.Durable txn := by
    intro txn hdurable r hr
    rw [hrecords] at hr
    rw [hdisk]
    exact mem_append_left _ (hdurable r hr)
  refine ⟨by rw [hworker]; exact hinv.idle, by rw [hworker]; exact hinv.current, ?_, ?_, ?_, ?_,
    ?_, ?_, ?_, ?_⟩
  · exact fun w' => (hinv.sorted w').sublist (hsub w')
  · intro w' r hr
    rw [hstarted]
    exact hinv.own w' r ((hsub w').subset hr)
  · intro r hr
    rw [hdisk] at hr
    rw [hstarted]
    rcases mem_append.mp hr with hr | hr
    · obtain ⟨hlt, hle⟩ := hinv.synced r hr
      exact ⟨hlt, fun r' hr' => hle r' ((hsub _).subset hr')⟩
    · have hmem : r ∈ s.unsynced w := by
        rw [hunsynced]
        exact mem_append_left _ hr
      obtain ⟨htxn, hlt⟩ := hinv.own w r hmem
      refine ⟨hlt, fun r' hr' => ?_⟩
      rw [htxn] at hr'
      have hsorted := hinv.sorted w
      rw [hunsynced, pairwise_append] at hsorted
      exact hsorted.2.2 r hr r' hr'
  · intro txn r hr
    rw [hrecords] at hr
    obtain ⟨htxn, hold⟩ := hinv.complete txn r hr
    refine ⟨htxn, ?_⟩
    rw [hdisk]
    rcases hold with hold | hold
    · exact .inl (mem_append_left _ hold)
    · by_cases hw : txn.1 = w
      · rw [hw, hunsynced] at hold
        rw [hw]
        rcases mem_append.mp hold with hold | hold
        · exact .inl (mem_append_right _ hold)
        · exact .inr hold
      · rw [hunsynced' _ hw]
        exact .inr hold
  · intro txn h
    rw [hstarted] at h
    rw [hrecords, hfrom]
    exact hinv.fresh txn h
  · intro row txn h
    rw [hwriter] at h
    rw [hstarted]
    exact hinv.writers row txn h
  · intro w' txn h
    rw [hworker] at h
    rw [hstarted]
    obtain ⟨hlt, hread⟩ := hinv.reads w' txn h
    exact ⟨hlt, hread.imp id hdurable⟩
  · intro txn txn' h
    rw [hfrom] at h
    rw [hstarted]
    obtain ⟨hlt, hread⟩ := hinv.from_older txn txn' h
    exact ⟨hlt, hread.imp id hdurable⟩

variable [DecidableEq ρ] {log_buffer_queues : List W}

theorem recoverInv_lock (hinv : RecoverInv s) {row : ρ} {kind : LockKind}
    (hok : s.ReadsDurable (.lock w row kind)) : RecoverInv (s.lockRow w row kind) := by
  rw [lockRow]
  split
  · refine recoverInv_worker hinv rfl rfl rfl rfl (fun _ _ => rfl) rfl rfl (hinv.idle w)
      (hinv.current w) hinv.writers fun txn htxn => ?_
    rcases mem_append.mp htxn with htxn | htxn
    · exact hinv.reads w txn htxn
    · have hwriter := mem_toList.mp htxn
      refine ⟨hinv.writers row txn hwriter, ?_⟩
      by_cases hw : txn.1 = w
      · exact .inl hw
      · exact .inr (hok txn hwriter hw)
  · exact hinv

omit [DecidableEq ρ] in
theorem recoverInv_write (hinv : RecoverInv s) (h : s.write w = some t) : RecoverInv t := by
  rw [write] at h
  split at h
  · rename_i r rest cur_epoch hlog hepoch
    obtain ⟨slave, hwrite, rfl⟩ := map_eq_some_iff.mp h
    have hlogging : ¬∀ txn written, (s.worker w).phase ≠ .logging txn written := by
      intro hphase
      rw [hinv.idle w hphase] at hlog
      cases hlog
    refine recoverInv_worker hinv rfl rfl rfl rfl (fun w' hne => update_of_ne hne ..) rfl
      ?_ (fun hphase => absurd hphase hlogging) (hinv.current w) hinv.writers (hinv.reads w)
    have hslave := PashaGroupCommitLoggerSlave.unsynced_write hwrite
    rw [unsynced, hlog]
    simp only [setWorker, update_self, hslave, append_assoc, singleton_append]
  · cases h

theorem recoverInv_apply (hinv : RecoverInv s) (h : s.apply w = some t) : RecoverInv t := by
  rw [apply] at h
  split at h
  · rename_i txn written hphase hlog
    cases h
    refine recoverInv_worker hinv rfl rfl rfl rfl (fun _ _ => rfl) rfl rfl (fun _ => hlog) nofun
      ?_ (hinv.reads w)
    intro row txn' htxn
    simp only [setWorker] at htxn
    split at htxn
    · cases htxn
      exact hinv.current w txn written hphase
    · exact hinv.writers row txn' htxn
  · cases h

theorem recoverInv_release (hinv : RecoverInv s) (h : s.release w = some t) : RecoverInv t := by
  obtain ⟨hphase, h⟩ := ite_none_right_eq_some.mp h
  have hidle := hinv.idle w (by rw [hphase]; nofun)
  split at h
  · cases h
    exact recoverInv_worker hinv rfl rfl rfl rfl (fun _ _ => rfl) rfl rfl (hinv.idle w)
      (hinv.current w) hinv.writers (hinv.reads w)
  · cases h
    exact recoverInv_worker hinv rfl rfl rfl rfl (fun _ _ => rfl) rfl rfl (fun _ => hidle) nofun
      hinv.writers nofun

omit [DecidableEq ρ] in
theorem recoverInv_do_sync (hinv : RecoverInv s) (h : s.do_sync = some t) : RecoverInv t := by
  rw [do_sync] at h
  split at h
  · split at h
    · rename_i hqueue
      cases h
      exact recoverInv_pop hinv hqueue rfl rfl rfl rfl rfl rfl
    · cases h
      exact recoverInv_frame hinv rfl rfl rfl (fun _ => rfl) (fun _ => rfl) hinv.idle hinv.current
        hinv.writers hinv.reads
  · cases h

theorem recoverInv_step {e : GroupLabel W ρ} (hinv : RecoverInv s) (hok : s.ReadsDurable e)
    (h : s.step log_buffer_queues e = some t) : RecoverInv t := by
  cases e with
  | lock w row kind =>
    obtain ⟨-, rfl⟩ := ite_some_none_eq_some.mp h
    exact recoverInv_lock hinv hok
  | commit w redo commit_size written =>
    obtain ⟨⟨hphase, -⟩, rfl⟩ := ite_some_none_eq_some.mp h
    exact recoverInv_commit hinv hphase redo commit_size written
  | loadEpoch w =>
    obtain ⟨-, rfl⟩ := ite_some_none_eq_some.mp h
    exact recoverInv_worker hinv rfl rfl rfl rfl (fun _ _ => rfl) rfl rfl (hinv.idle w)
      (hinv.current w) hinv.writers (hinv.reads w)
  | write w => exact recoverInv_write hinv h
  | apply w => exact recoverInv_apply hinv h
  | abort w =>
    obtain ⟨hphase, rfl⟩ := ite_some_none_eq_some.mp h
    have hidle := hinv.idle w (by rw [hphase]; nofun)
    exact recoverInv_worker hinv rfl rfl rfl rfl (fun _ _ => rfl) rfl rfl (fun _ => hidle) nofun
      hinv.writers (hinv.reads w)
  | release w => exact recoverInv_release hinv h
  | start =>
    obtain ⟨-, rfl⟩ := ite_some_none_eq_some.mp h
    exact recoverInv_frame hinv rfl rfl rfl (fun _ => rfl) (fun _ => rfl) hinv.idle hinv.current
      hinv.writers hinv.reads
  | do_sync => exact recoverInv_do_sync hinv h

def Counted (s : GroupCommit W ρ) : Prop :=
  s.committed_txn_cnt = s.disk.countP LogRecord.persist

omit [DecidableEq W] [DecidableEq ρ] in
theorem counted_start : (start : GroupCommit W ρ).Counted := rfl

theorem counted_step {e : GroupLabel W ρ} (hcounted : s.Counted)
    (h : s.step log_buffer_queues e = some t) : t.Counted := by
  cases e with
  | lock w row kind =>
    obtain ⟨-, rfl⟩ := ite_some_none_eq_some.mp h
    rw [lockRow]
    split
    · exact hcounted
    · exact hcounted
  | commit w redo commit_size written | loadEpoch w | abort w | start =>
    obtain ⟨-, rfl⟩ := ite_some_none_eq_some.mp h
    exact hcounted
  | write w =>
    simp only [step, write] at h
    split at h
    · obtain ⟨slave, -, rfl⟩ := map_eq_some_iff.mp h
      exact hcounted
    · cases h
  | apply w =>
    simp only [step, apply] at h
    split at h
    · cases h
      exact hcounted
    · cases h
  | release w =>
    obtain ⟨-, h⟩ := ite_none_right_eq_some.mp h
    split at h
    · cases h
      exact hcounted
    · cases h
      exact hcounted
  | do_sync =>
    simp only [step, do_sync] at h
    split at h
    · split at h
      · cases h
        rw [Counted, countP_append, ← hcounted]
        rfl
      · cases h
        exact hcounted
    · cases h

-- When rows of other workers' transactions are read only once these are durable, whoever
-- a counted transaction read from is durable too.
theorem synced_transactions_are_recoverable {s : GroupCommit W ρ}
    (hreach : Reach (step log_buffer_queues) ReadsDurable start s) :
    s.committed_txn_cnt = s.disk.countP LogRecord.persist ∧
    ∀ r ∈ s.disk, r.persist = true → ∀ txn ∈ s.readsFrom r.txn, s.Durable txn := by
  have hinv := hreach.invariant recoverInv_start
    fun _ _ _ hinv hok h => recoverInv_step hinv hok h
  have hcounted := hreach.invariant counted_start
    fun _ _ _ hcounted _ h => counted_step hcounted h
  exact ⟨hcounted, fun r hr _ txn hread => hinv.durable_of_readsFrom hr rfl hread⟩

instance (s : GroupCommit W ρ) (txn : W × Nat) : Decidable (s.Durable txn) :=
  inferInstanceAs (Decidable (∀ r ∈ s.records txn, r ∈ s.disk))

instance (s : GroupCommit W ρ) (e : GroupLabel W ρ) : Decidable (s.ReadsDurable e) := by
  cases e <;> unfold ReadsDurable <;> infer_instance

-- Worker 0 logs and another write of its own, in the next epoch, has its buffer synced.
-- Worker 1 then reads row 5, and its own records follow.
theorem reader_of_durable_writer_is_recoverable :
    ∃ s : GroupCommit (Fin 2) Nat, Reach (step [0, 1]) ReadsDurable start s ∧
      (1, 0) ∈ s.disk.map LogRecord.txn ∧ s.readsFrom (1, 0) = [(0, 0)] ∧
      s.committed_txn_cnt = s.disk.countP LogRecord.persist ∧
      ∀ r ∈ s.disk, r.persist = true → ∀ txn ∈ s.readsFrom r.txn, s.Durable txn := by
  obtain ⟨s, hreach, hdisk, hfrom⟩ := exists_reach_of_run (step [0, 1]) ReadsDurable
    (start : GroupCommit (Fin 2) Nat)
    [.lock 0 5 .write, .commit 0 [40] 2 [5], .loadEpoch 0, .write 0, .loadEpoch 0, .write 0,
      .apply 0, .release 0, .release 0, .start, .do_sync, .do_sync,
      .lock 0 6 .write, .commit 0 [40] 2 [6], .loadEpoch 0, .write 0, .start, .do_sync, .do_sync,
      .do_sync,
      .lock 1 5 .read, .lock 1 7 .write, .commit 1 [40] 2 [7], .loadEpoch 1, .write 1,
      .loadEpoch 1, .write 1, .apply 1, .release 1, .release 1, .release 1, .start, .do_sync,
      .do_sync, .lock 1 7 .write, .commit 1 [40] 2 [7], .loadEpoch 1, .write 1, .start, .do_sync,
      .do_sync]
    (fun s => (1, 0) ∈ s.disk.map LogRecord.txn ∧ s.readsFrom (1, 0) = [(0, 0)])
    (by decide +kernel)
  exact ⟨s, hreach, hdisk, hfrom, synced_transactions_are_recoverable hreach⟩

-- Worker 0 logs, writes row 5 and unlocks it; its records stay in its own buffer. Worker 1
-- reads row 5 and logs, and its next write, in the next epoch, has its buffer synced.
theorem reader_is_synced_before_writer :
    ∃ s : GroupCommit (Fin 2) Nat, Reach (step [0, 1]) (fun _ _ => True) start s ∧
      s.committed_txn_cnt = 1 ∧ (⟨(1, 0), 1, 2, true⟩ : LogRecord (Fin 2 × Nat)) ∈ s.disk ∧
      (0, 0) ∈ s.readsFrom (1, 0) ∧
      s.records (0, 0) = [⟨(0, 0), 0, 40, false⟩, ⟨(0, 0), 1, 2, true⟩] ∧
      ∀ r ∈ s.records (0, 0), r ∉ s.disk :=
  exists_reach_of_run _ _ _
    [.lock 0 5 .write, .commit 0 [40] 2 [5], .loadEpoch 0, .write 0, .loadEpoch 0, .write 0,
      .apply 0, .release 0, .release 0,
      .lock 1 5 .read, .lock 1 7 .write, .commit 1 [40] 2 [7], .loadEpoch 1, .write 1,
      .loadEpoch 1, .write 1, .apply 1, .release 1, .release 1, .release 1,
      .start, .do_sync, .do_sync,
      .lock 1 7 .write, .commit 1 [40] 2 [7], .loadEpoch 1, .write 1, .start, .do_sync, .do_sync] _
    (by decide +kernel)

end GroupCommit

end Tigon.TwoPLPasha
