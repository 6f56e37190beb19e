import Tigon.TwoPLPasha.RemoteScan.NoPhantoms

namespace Tigon.TwoPLPasha

open Option Table RemoteScan ScanArgs Tigon.Library

namespace RemoteScanSystem

variable {K α : Type} [LinearOrder K] {ctx : Context} {host scanner : Host} {args : ScanArgs K}
  {s s' : RemoteScanSystem K α} {t : Table K α}

-- scan_results.size() == limit also holds of an unlimited scan that has found nothing yet. Its
-- first row is then tested as the row after the range would be, and if it is the last one of
-- the CXL index it is taken for that row.
def takesFirstForNext (args : ScanArgs K) (t : Table K α) : Bool :=
  args.limit == 0 && (t.fetch args.min_key none).any fun (key, row, is_last_tuple) =>
    is_last_tuple && decide (key ≠ args.min_key) && decide (key ≤ args.max_key)
      && ((t.row key).smeta row).get_prev_key_real_bit

theorem takesFirstForNext_iff : takesFirstForNext args t = true ↔
    args.limit = 0 ∧ ∃ key row, t.fetch args.min_key none = some (key, row, true) ∧
      key ≠ args.min_key ∧ key ≤ args.max_key ∧
      ((t.row key).smeta row).get_prev_key_real_bit = true := by
  simp only [takesFirstForNext, Bool.and_eq_true, beq_iff_eq, any_eq_true,
    decide_eq_true_eq, Prod.exists]
  constructor
  · rintro ⟨hlimit, key, row, last, hfetch, ⟨⟨rfl, hkey⟩, hmax⟩, hbit⟩
    exact ⟨hlimit, key, row, hfetch, hkey, hmax, hbit⟩
  · rintro ⟨hlimit, key, row, hfetch, hkey, hmax, hbit⟩
    exact ⟨hlimit, key, row, true, hfetch, ⟨⟨rfl, hkey⟩, hmax⟩, hbit⟩

def Untouched (t : Table K α) (s : RemoteScanSystem K α) : Prop :=
  s.scan.scan_results = [] → s.table = t

def Alone (args : ScanArgs K) (t : Table K α) (s : RemoteScanSystem K α) : Prop :=
  s.table.keys = t.keys ∧ match s.scan.phase with
    | .fetching => s.Untouched t
    | .checking key row is_last_tuple => s.Untouched t ∧
        s.table.fetch args.min_key s.scan.cursor = some (key, row, is_last_tuple)
    | .locking key row is_last_tuple => s.Untouched t ∧
        s.StillPasses args (.locking key row is_last_tuple)
    | _ => True

theorem alone_lockRow {key : K} {row : Ptr} {is_last_tuple : Bool} (hkeys : s.table.keys = t.keys) :
    (s.lockRow scanner args key row is_last_tuple).Alone args t := by
  refine ⟨hkeys, ?_⟩
  by_cases hgrant : (RowState.remoteLock args.type.kind false true (s.table.row key) scanner
      row).success = true
  · by_cases hnext : args.locking_next_tuple s.scan.keys key is_last_tuple = true
    · simp [lockRow, hgrant, hnext]
    · simp [lockRow, hgrant, hnext, Untouched]
  · simp [lockRow, hgrant, fail]

theorem alone_scanStep (hs : s.ScanInv args) (ha : s.Alone args t)
    (h : s.scanStep ctx host scanner args = some s') : s'.Alone args t := by
  have hprogress := hs.progress
  unfold Progress at hprogress
  obtain ⟨hkeys, hphase'⟩ := ha
  unfold scanStep at h
  cases hphase : s.scan.phase with
  | fetching =>
    simp only [hphase] at h hphase'
    cases hfetch : s.table.fetch args.min_key s.scan.cursor with
    | none =>
      simp only [hfetch] at h
      cases h
      exact ⟨hkeys, trivial⟩
    | some entry =>
      simp only [hfetch] at h
      cases h
      exact ⟨hkeys, hphase', hfetch⟩
  | checking key row is_last_tuple =>
    simp only [hphase] at h hphase' hprogress
    obtain ⟨hw, hmin, hcursor⟩ := hprogress
    rw [if_neg (by rw [not_skips hw hmin hcursor]; decide)] at h
    split at h
    · rename_i hreal
      cases h
      exact ⟨hkeys, hphase'.1, hphase'.2, hreal⟩
    · cases h
      exact ⟨hkeys, trivial⟩
  | locking key row is_last_tuple =>
    simp only [hphase] at h
    cases h
    exact alone_lockRow hkeys
  | unlocking =>
    simp only [hphase] at h
    split at h
    · cases h
      exact ⟨hkeys, trivial⟩
    · obtain ⟨t', hcall, rfl⟩ := map_eq_some_iff.mp h
      exact ⟨(lock_call hcall).1.trans hkeys, trivial⟩
  | dereferencing =>
    simp only [hphase] at h
    split at h
    · cases h
    · obtain ⟨t', hcall, rfl⟩ := map_eq_some_iff.mp h
      exact ⟨(lock_call hcall).1.trans hkeys, trivial⟩
  | returned scan_success migration_required =>
    simp only [hphase] at h
    cases h

theorem locksWhatItChecked_of_alone (ha : s.Alone args t) : s.LocksWhatItChecked args .scan := by
  obtain ⟨-, hphase'⟩ := ha
  unfold LocksWhatItChecked
  cases hphase : s.scan.phase with
  | locking key row is_last_tuple =>
    simp only [hphase] at hphase'
    exact hphase'.2
  | _ => trivial

theorem stopsAt_of_alone {key : K} {row : Ptr} (hs : s.ScanInv args) (ha : s.Alone args t)
    (hnot : takesFirstForNext args t = false) (hphase : s.scan.phase = .locking key row true) :
    args.StopsAt s.scan.keys key := by
  obtain ⟨hf, hreal⟩ := fetches_of_locking hphase (locksWhatItChecked_of_alone ha)
  refine stopsAt_of_last hs ?_ hf hreal
  intro hlimit hnone hkey
  obtain ⟨-, hphase'⟩ := ha
  simp only [hphase] at hphase'
  obtain ⟨htable, hfetch, hbits⟩ := hphase'
  have hcursor : s.scan.cursor = none := by
    have hprogress := hs.progress
    rw [Progress, hphase] at hprogress
    rw [hprogress.cursor, RemoteScan.keys, hnone]
    rfl
  rw [htable hnone, hcursor] at hfetch
  rw [htable hnone] at hbits
  by_contra hmax
  have htakes := takesFirstForNext_iff.mpr ⟨hlimit, key, row, hfetch, hkey, not_lt.mp hmax,
    prev_of_neighboursReal hbits hkey⟩
  exact absurd (hnot.symm.trans htakes) (by decide)

def Exact (args : ScanArgs K) (t : Table K α) (s : RemoteScanSystem K α) : Prop :=
  s.scan.scan_results.map Prod.fst = args.rows t.keys ∧
  ∃ next row, s.scan.next_row_entity = some (next, row) ∧
    IsLeast {k | k ∈ t.keys ∧ args.min_key ≤ k ∧ ∀ r ∈ args.rows t.keys, r < k} next

theorem exact_of_found {migration_required : Bool} (hs : s.ScanInv args) (ha : s.Alone args t)
    (hreturn : s.scan.phase = .returned true migration_required) : s.Exact args t := by
  obtain ⟨next, hnext, hfound⟩ : ∃ next, s.scan.next_row_entity.map Prod.fst = some next ∧
      s.Found args next := by
    have hprogress := hs.progress
    rw [Progress, hreturn] at hprogress
    exact hprogress
  have hrows := eq_rows hfound.guarded hfound.within hfound.stops
  have hleast := isLeast_next hfound.guarded
  rw [hrows] at hleast
  obtain ⟨⟨next', row⟩, hentity, rfl⟩ := map_eq_some_iff.mp hnext
  have hkeys : s.inserts.table.keys = t.keys := ha.1
  rw [hkeys] at hrows hleast
  exact ⟨hrows, next', row, hentity, hleast⟩

theorem exists_missing_scan (ctx : Context) (host scanner : Host) (hwf : t.WellFormed)
    (husable : ∀ k ∈ t.keys, (t.row k).view.Usable) (htakes : takesFirstForNext args t = true) :
    ∃ s : RemoteScanSystem K α, Reach (step ctx host scanner args) (fun _ e => e = .scan)
        ⟨⟨t, []⟩, start K⟩ s ∧
      s.scan.phase = .returned true false ∧ s.scan.scan_results = [] ∧ args.rows t.keys ≠ [] := by
  obtain ⟨hlimit, key, row, hfetch, hkey, hmax, hbit⟩ := takesFirstForNext_iff.mp htakes
  have hf := fetches_of_fetch hfetch
  have hcur := isCurrent_of_cxl hwf hf.cxl
  have hlock : (RowState.remoteLock args.type.kind false true (t.row key) scanner row).success
      = true := by
    rw [(RowState.remoteLock_refines (hwf.row key) hcur args.type.kind false true scanner).success]
    exact (Bool.and_eq_true _ _).mpr ⟨(husable key hf.mem).shared hcur.1,
      (husable key hf.mem).free args.type.kind⟩
  let fetched : RemoteScanSystem K α :=
    ⟨⟨t, []⟩, { start K with phase := .checking key row true }⟩
  let checked : RemoteScanSystem K α :=
    ⟨⟨t, []⟩, { start K with phase := .locking key row true }⟩
  have hfirst : step ctx host scanner args ⟨⟨t, []⟩, start K⟩ .scan = some fetched := by
    simp only [step, scanStep, start, table, hfetch]
    rfl
  have hsecond : step ctx host scanner args fetched .scan = some checked := by
    have hskips : args.skips [] key = false := by simp [skips, hf.min_key_le]
    have hreal : args.neighboursReal 0 key ((t.row key).smeta row) = true := by
      rw [neighboursReal, if_neg hkey, if_pos hlimit.symm]
      exact hbit
    simp only [step, scanStep, fetched, RemoteScan.start, RemoteScan.keys, table, List.map_nil,
      List.length_nil, hskips, hreal]
    rfl
  have hthird : step ctx host scanner args checked .scan
      = some (checked.lockRow scanner args key row true) := rfl
  refine ⟨_, .tail (.tail (.tail .refl rfl hfirst) rfl hsecond) rfl hthird, ?_, ?_, ?_⟩
  · simp [lockRow, checked, table, hlock, locking_next_tuple]
  · simp [lockRow, checked, table, hlock, locking_next_tuple, start]
  · exact List.ne_nil_of_mem
      ((mem_rows_of_unlimited hlimit).mpr ⟨hf.mem, hf.min_key_le, hmax⟩)

section Example

def threeKeys : Table Nat Nat :=
  load {1, 5, 12} (fun _ => ⟨0⟩) (fun _ => ⟨0, 0, 0, 0⟩) id

def moveOneAndFiveIn : List (TableLabel Nat Nat) :=
  [.moveIn 1 ⟨some 1, some (64, ⟨0, 0, 0, 0⟩)⟩ false,
    .moveIn 5 ⟨some 2, some (128, ⟨0, 0, 0, 0⟩)⟩ false]

end Example

end RemoteScanSystem

end Tigon.TwoPLPasha
