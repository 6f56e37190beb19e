import Tigon.TwoPLPasha.InsertSystem.Guards
import Tigon.TwoPLPasha.RemoteScan

namespace Tigon.TwoPLPasha

open List Option RowState Table RemoteScan ScanArgs Tigon.Library

namespace Table

variable {K α : Type} [LinearOrder K] {t : Table K α} {key : K} {row : Ptr}

theorem mem_cxlKeys_of_migrated (ht : t.WellFormed) (hm : (t.info key).migrated = true) :
    key ∈ t.cxlKeys := by
  have hmem : key ∈ t.keys := by
    by_contra hkey
    exact absurd (hm.symm.trans (ht.gone key hkey)) (by decide)
  have hcxl := (ht.row key).cxl
  have hmigrated : (t.row key).lmeta.is_migrated = true := hm
  rw [if_pos hmigrated] at hcxl
  exact Finset.mem_filter.mpr ⟨hmem, by rw [hcxl]; rfl⟩

omit [LinearOrder K] in
theorem isCurrent_of_cxl (ht : t.WellFormed) (h : (t.row key).cxl = some row) :
    (t.row key).IsCurrent row := by
  have hcxl := (ht.row key).cxl
  rw [h] at hcxl
  split at hcxl
  · rename_i hm
    exact ⟨hm, (some.inj hcxl).symm⟩
  · cases hcxl

structure Fetches (t : Table K α) (min_key : K) (cursor : Option K) (key : K) (row : Ptr)
    (is_last_tuple : Bool) : Prop where
  mem : key ∈ t.keys
  min_key_le : min_key ≤ key
  cursor_lt : ∀ c ∈ cursor, c < key
  least : ∀ k ∈ t.cxlKeys, min_key ≤ k → (∀ c ∈ cursor, c < k) → key ≤ k
  cxl : (t.row key).cxl = some row
  last : is_last_tuple = true → ∀ k ∈ t.cxlKeys, k ≤ key

theorem fetches_of_fetch {min_key : K} {cursor : Option K} {is_last_tuple : Bool}
    (h : t.fetch min_key cursor = some (key, row, is_last_tuple)) :
    t.Fetches min_key cursor key row is_last_tuple := by
  unfold fetch at h
  dsimp only at h
  split at h
  · rename_i hne
    simp only [map_eq_some_iff, Prod.mk.injEq] at h
    obtain ⟨row', hcxl, hkey, rfl, hlast⟩ := h
    have hmem := Finset.min'_mem _ hne
    rw [hkey] at hmem hcxl hlast
    obtain ⟨hmem, hmin, hcursor⟩ := Finset.mem_filter.mp hmem
    refine ⟨(Finset.mem_filter.mp hmem).1, hmin, hcursor, fun k hk hmk hck => ?_, hcxl, ?_⟩
    · rw [← hkey]
      exact Finset.min'_le _ _ (Finset.mem_filter.mpr ⟨hk, hmk, hck⟩)
    · intro htrue
      rw [htrue, isNone_iff_eq_none] at hlast
      exact nextIn_eq_none.mp hlast
  · cases h

end Table

namespace ScanArgs

variable {K : Type} [LinearOrder K] {args : ScanArgs K} {found : Nat} {key : K}
  {smeta : TwoPLPashaMetadataShared}

theorem prev_of_neighboursReal (h : args.neighboursReal found key smeta = true)
    (hkey : key ≠ args.min_key) : smeta.get_prev_key_real_bit = true := by
  rw [neighboursReal, if_neg hkey] at h
  split at h
  · exact h
  · exact ((Bool.and_eq_true _ _).mp h).2

theorem next_of_neighboursReal (h : args.neighboursReal found key smeta = true)
    (hfound : key = args.min_key ∨ found ≠ args.limit) : smeta.get_next_key_real_bit = true := by
  rw [neighboursReal] at h
  split at h
  · exact h
  · rename_i hkey
    rw [if_neg (hfound.resolve_left hkey)] at h
    exact ((Bool.and_eq_true _ _).mp h).1

end ScanArgs

namespace RemoteScanSystem

variable {K α : Type} [LinearOrder K] {ctx : Context} {host scanner : Host} {args : ScanArgs K}
  {s s' : RemoteScanSystem K α}

-- In front of the lock of a row the index would still hand it out and its bits would still
-- pass.
def StillPasses (args : ScanArgs K) (s : RemoteScanSystem K α) : RemotePhase K → Prop
  | .locking key cxl_row is_last_tuple =>
    s.table.fetch args.min_key s.scan.cursor = some (key, cxl_row, is_last_tuple) ∧
      args.neighboursReal s.scan.scan_results.length key ((s.table.row key).smeta cxl_row) = true
  | _ => True

instance (s : RemoteScanSystem K α) (phase : RemotePhase K) :
    Decidable (s.StillPasses args phase) := by
  cases phase <;> unfold StillPasses <;> infer_instance

def LocksWhatItChecked (args : ScanArgs K) (s : RemoteScanSystem K α) :
    RemoteScanLabel K α → Prop
  | .other _ => True
  | .scan => s.StillPasses args s.scan.phase

instance (s : RemoteScanSystem K α) (e : RemoteScanLabel K α) :
    Decidable (s.LocksWhatItChecked args e) := by
  cases e <;> unfold LocksWhatItChecked <;> infer_instance

structure Walking (args : ScanArgs K) (s : RemoteScanSystem K α) : Prop where
  guarded : s.inserts.Guarded args.type.kind args.min_key s.scan.keys
  within : args.Within s.scan.keys
  cursor : s.scan.cursor = s.scan.keys.getLast?

structure Found (args : ScanArgs K) (next : K) (s : RemoteScanSystem K α) : Prop where
  guarded : s.inserts.Guarded args.type.kind args.min_key (s.scan.keys ++ [next])
  within : args.Within s.scan.keys
  stops : args.StopsAt s.scan.keys next

def Progress (args : ScanArgs K) (s : RemoteScanSystem K α) : Prop :=
  match s.scan.phase with
  | .fetching | .locking .. => s.Walking args
  | .checking key .. => s.Walking args ∧ args.min_key ≤ key ∧ ∀ c ∈ s.scan.cursor, c < key
  | .returned true _ => ∃ next, s.scan.next_row_entity.map Prod.fst = some next ∧ s.Found args next
  | _ => True

structure ScanInv (args : ScanArgs K) (s : RemoteScanSystem K α) : Prop where
  wellFormed : s.table.WellFormed
  sound : Sound s.table.keys s.table.info
  progress : s.Progress args

variable {key : K} {row : Ptr}

theorem no_gap {is_last_tuple : Bool} (hs : s.ScanInv args) (hw : s.Walking args)
    (hf : s.table.Fetches args.min_key s.scan.cursor key row is_last_tuple)
    (hreal : args.neighboursReal s.scan.scan_results.length key ((s.table.row key).smeta row) =
      true) :
    ∀ k ∈ s.table.keys, args.min_key ≤ k → k < key → k ∈ s.scan.keys := by
  intro k hk hmin hlt
  have hne : key ≠ args.min_key := fun heq => absurd (heq ▸ hmin) (not_le.mpr hlt)
  obtain ⟨hm, hrow⟩ := isCurrent_of_cxl hs.wellFormed hf.cxl
  have hbit : (s.table.info key).prev_real = true := by
    have hprev := prev_of_neighboursReal hreal hne
    rw [← hrow] at hprev
    exact (Bool.and_eq_true _ _).mpr ⟨hm, hprev⟩
  obtain ⟨p, hp, hpm⟩ := hs.sound.prev key hf.mem hbit
  obtain ⟨hpkeys, hpkey, hmax⟩ := prevIn_eq_some.mp hp
  have hkp : k ≤ p := hmax k hk hlt
  have hcursor : ∃ c ∈ s.scan.cursor, p ≤ c := by
    by_contra hno
    have hafter : ∀ c ∈ s.scan.cursor, c < p := fun c hc =>
      lt_of_not_ge fun hpc => hno ⟨c, hc, hpc⟩
    have hle := hf.least p (mem_cxlKeys_of_migrated hs.wellFormed hpm) (hmin.trans hkp) hafter
    exact absurd hle (not_le.mpr hpkey)
  obtain ⟨c, hc, hpc⟩ := hcursor
  rw [hw.cursor] at hc
  exact hw.guarded.covers k hk hmin c (mem_of_getLast? hc) (hkp.trans hpc)

-- The last row of the CXL index passes the test only as the row after the last one, except
-- that of an unlimited scan the test takes the first row for it.
theorem stopsAt_of_last (hs : s.ScanInv args)
    (hfirst : args.limit = 0 → s.scan.scan_results = [] → key ≠ args.min_key → args.max_key < key)
    (hf : s.table.Fetches args.min_key s.scan.cursor key row true)
    (hreal : args.neighboursReal s.scan.scan_results.length key ((s.table.row key).smeta row) =
      true) :
    args.StopsAt s.scan.keys key := by
  have hlen : s.scan.keys.length = s.scan.scan_results.length := length_map ..
  by_cases hnext : key = args.min_key ∨ s.scan.scan_results.length ≠ args.limit
  · obtain ⟨hm, hrow⟩ := isCurrent_of_cxl hs.wellFormed hf.cxl
    have hbit : (s.table.info key).next_real = true := by
      have hnext := next_of_neighboursReal hreal hnext
      rw [← hrow] at hnext
      exact (Bool.and_eq_true _ _).mpr ⟨hm, hnext⟩
    obtain ⟨n, hn, hnm⟩ := hs.sound.next key hf.mem hbit
    have hlt : key < n := (nextIn_eq_some.mp hn).2.1
    have hle := hf.last rfl n (mem_cxlKeys_of_migrated hs.wellFormed hnm)
    exact absurd hle (not_le.mpr hlt)
  · rw [not_or, not_not] at hnext
    obtain ⟨hkey, hfound⟩ := hnext
    by_cases hlimit : args.limit = 0
    · exact .inl (hfirst hlimit (length_eq_zero_iff.mp (by omega)) hkey)
    · exact .inr ⟨hlimit, by omega⟩

theorem scanInv_other {e : InsertLabel K α} {inserts : InsertSystem K α} (hs : s.ScanInv args)
    (h : s.inserts.step ctx host e = some inserts) :
    ({ s with inserts := inserts } : RemoteScanSystem K α).ScanInv args := by
  have hguard : ∀ held, s.inserts.Guarded args.type.kind args.min_key held →
      inserts.Guarded args.type.kind args.min_key held :=
    fun held hg => InsertSystem.guarded_step hs.wellFormed hg h
  have hwalk : s.Walking args →
      ({ s with inserts := inserts } : RemoteScanSystem K α).Walking args :=
    fun hw => ⟨hguard _ hw.guarded, hw.within, hw.cursor⟩
  refine ⟨InsertSystem.wellFormed_step hs.wellFormed h,
    InsertSystem.sound_step hs.wellFormed hs.sound h, ?_⟩
  have hprogress := hs.progress
  unfold Progress at hprogress ⊢
  dsimp only
  split at hprogress
  · exact hwalk hprogress
  · exact hwalk hprogress
  · exact ⟨hwalk hprogress.1, hprogress.2⟩
  · obtain ⟨next, hnext, hfound⟩ := hprogress
    exact ⟨next, hnext, hguard _ hfound.guarded, hfound.within, hfound.stops⟩
  · trivial

theorem table_call {c : RowCall α} {t : Table K α} (hs : s.ScanInv args)
    (h : s.table.step ctx host (.call key c) = some t) : t.WellFormed ∧ Sound t.keys t.info := by
  have hkeeps : s.table.KeepsRows (.call key c) := trivial
  exact ⟨wellFormed_step hs.wellFormed hkeeps.abortsUnmigrated h,
    sound_step hs.wellFormed hs.sound hkeeps h⟩

theorem fetches_of_locking {is_last_tuple : Bool}
    (hphase : s.scan.phase = .locking key row is_last_tuple)
    (hok : s.LocksWhatItChecked args .scan) :
    s.table.Fetches args.min_key s.scan.cursor key row is_last_tuple ∧
      args.neighboursReal s.scan.scan_results.length key ((s.table.row key).smeta row) = true := by
  have hpasses : s.StillPasses args s.scan.phase := hok
  rw [hphase] at hpasses
  exact ⟨fetches_of_fetch hpasses.1, hpasses.2⟩

section Lock

variable {key : K} {row : Ptr} {is_last_tuple : Bool}

theorem table_lockRow (s : RemoteScanSystem K α) :
    (s.lockRow scanner args key row is_last_tuple).table = s.table.onRow key fun _ =>
      (remoteLock args.type.kind false true (s.table.row key) scanner row).row := rfl

theorem table_lockRow_eq_step (ctx : Context) (host : Host) (s : RemoteScanSystem K α) :
    s.table.step ctx host (.call key (.remoteLock scanner row args.type.kind false true))
      = some (s.lockRow scanner args key row is_last_tuple).table := by
  rw [Table.step, if_pos (by simp [RowCall.isLocal]), table_lockRow]
  rfl

theorem lock_onRow_remoteLock (hs : s.ScanInv args) (hcur : (s.table.row key).IsCurrent row)
    (hok : (remoteLock args.type.kind false true (s.table.row key) scanner row).success
      = true) :
    (s.table.lock key).free 31 args.type.kind = true ∧
    (s.table.onRow key fun _ => (remoteLock args.type.kind false true (s.table.row key)
      scanner row).row).lock key = (s.table.lock key).acquire args.type.kind := by
  obtain ⟨hview, hsuccess, -, -, -⟩ := remoteLock_refines (hs.wellFormed.row key) hcur
    args.type.kind false true scanner
  have hlocks := hsuccess.symm.trans hok
  refine ⟨RowView.free_of_remoteLocks hlocks, ?_⟩
  rw [lock, info_onRow, Function.update_self, presence, hview]
  change (RowView.remoteLock args.type.kind (s.table.row key).view).lock = _
  rw [RowView.lock_remoteLock, if_pos hlocks]
  rfl

theorem guarded_lockRow (hs : s.ScanInv args) (hw : s.Walking args)
    (hf : s.table.Fetches args.min_key s.scan.cursor key row is_last_tuple)
    (hreal : args.neighboursReal s.scan.scan_results.length key
      ((s.table.row key).smeta row) = true)
    (hok : (remoteLock args.type.kind false true (s.table.row key) scanner row).success
      = true) :
    (s.lockRow scanner args key row is_last_tuple).inserts.Guarded args.type.kind args.min_key
      (s.scan.keys ++ [key]) := by
  obtain ⟨hfree, hlock⟩ := lock_onRow_remoteLock hs
    (isCurrent_of_cxl hs.wellFormed hf.cxl) hok
  have hafter : ∀ k ∈ s.scan.keys, k < key :=
    hw.guarded.lt_of_last fun c hc => hf.cursor_lt c (hw.cursor ▸ hc)
  exact Guards.extend hw.guarded hf.mem hf.min_key_le hafter (no_gap hs hw hf hreal) hfree hlock
    (lock_call (table_lockRow_eq_step ⟨true, true⟩ 0 s)).2

theorem scanInv_lockRow (hs : s.ScanInv args)
    (hlast : is_last_tuple = true → args.StopsAt s.scan.keys key)
    (hphase : s.scan.phase = .locking key row is_last_tuple)
    (hok : s.LocksWhatItChecked args .scan) :
    (s.lockRow scanner args key row is_last_tuple).ScanInv args := by
  have hw : s.Walking args := by
    have hprogress := hs.progress
    rw [Progress, hphase] at hprogress
    exact hprogress
  obtain ⟨hf, hreal⟩ := fetches_of_locking hphase hok
  obtain ⟨hwf, hsound⟩ := table_call hs (table_lockRow_eq_step ⟨true, true⟩ 0 s)
  refine ⟨hwf, hsound, ?_⟩
  by_cases hgrant : (remoteLock args.type.kind false true (s.table.row key) scanner
      row).success = true
  · have hg := guarded_lockRow hs hw hf hreal hgrant
    by_cases hnext : args.locking_next_tuple s.scan.keys key is_last_tuple = true
    · have hscan : (s.lockRow scanner args key row is_last_tuple).scan
          = { s.scan with next_row_entity := some (key, row), phase := .returned true false } := by
        simp [lockRow, hgrant, hnext]
      rw [Progress, hscan]
      refine ⟨key, rfl, ?_, ?_, ?_⟩
      · rw [hscan]
        exact hg
      · rw [hscan]
        exact hw.within
      · rw [hscan]
        exact stopsAt_of_locking_next_tuple hnext hlast
    · have hscan : (s.lockRow scanner args key row is_last_tuple).scan
          = { s.scan with
              scan_results := s.scan.scan_results ++ [(key, row)]
              cursor := some key
              phase := .fetching } := by
        simp [lockRow, hgrant, hnext]
      have hkeys : (s.lockRow scanner args key row is_last_tuple).scan.keys
          = s.scan.keys ++ [key] := by
        rw [hscan]
        simp [RemoteScan.keys]
      rw [Progress, hscan]
      refine ⟨?_, ?_, ?_⟩
      · rw [hkeys]
        exact hg
      · rw [hkeys]
        exact hw.within.push (eq_false_of_ne_true hnext)
      · rw [hkeys, hscan]
        simp
  · have hscan : (s.lockRow scanner args key row is_last_tuple).scan = s.scan.fail := by
      simp [lockRow, hgrant]
    rw [Progress, hscan]
    trivial

end Lock

theorem not_skips (hw : s.Walking args) (hmin : args.min_key ≤ key)
    (hcursor : ∀ c ∈ s.scan.cursor, c < key) : args.skips s.scan.keys key = false := by
  rw [skips, if_pos hmin, ← hw.cursor]
  cases hc : s.scan.cursor with
  | none => rfl
  | some c =>
    have hlt := hcursor c (by rw [hc]; rfl)
    simpa using hlt

theorem scanInv_scanStep (hs : s.ScanInv args)
    (hlast : ∀ key row, s.scan.phase = .locking key row true → args.StopsAt s.scan.keys key)
    (hok : s.LocksWhatItChecked args .scan) (h : s.scanStep ctx host scanner args = some s') :
    s'.ScanInv args := by
  have hprogress := hs.progress
  unfold Progress at hprogress
  unfold scanStep at h
  cases hphase : s.scan.phase with
  | fetching =>
    simp only [hphase] at h hprogress
    cases hfetch : s.table.fetch args.min_key s.scan.cursor with
    | none =>
      simp only [hfetch] at h
      cases h
      exact ⟨hs.wellFormed, hs.sound, trivial⟩
    | some entry =>
      obtain ⟨key, row, is_last_tuple⟩ := entry
      simp only [hfetch] at h
      cases h
      have hf := fetches_of_fetch hfetch
      exact ⟨hs.wellFormed, hs.sound, ⟨hprogress.guarded, hprogress.within, hprogress.cursor⟩,
        hf.min_key_le, hf.cursor_lt⟩
  | checking key row is_last_tuple =>
    simp only [hphase] at h hprogress
    obtain ⟨hw, hmin, hcursor⟩ := hprogress
    rw [if_neg (by rw [not_skips hw hmin hcursor]; decide)] at h
    split at h
    · cases h
      exact ⟨hs.wellFormed, hs.sound, hw.guarded, hw.within, hw.cursor⟩
    · cases h
      exact ⟨hs.wellFormed, hs.sound, trivial⟩
  | locking key row is_last_tuple =>
    simp only [hphase] at h
    cases h
    refine scanInv_lockRow hs ?_ hphase hok
    rintro rfl
    exact hlast key row hphase
  | unlocking =>
    simp only [hphase] at h
    split at h
    · cases h
      exact ⟨hs.wellFormed, hs.sound, trivial⟩
    · rw [map_eq_some_iff] at h
      obtain ⟨t, hcall, rfl⟩ := h
      obtain ⟨hwf, hsound⟩ := table_call hs hcall
      exact ⟨hwf, hsound, trivial⟩
  | dereferencing =>
    simp only [hphase] at h
    split at h
    · cases h
    · rw [map_eq_some_iff] at h
      obtain ⟨t, hcall, rfl⟩ := h
      obtain ⟨hwf, hsound⟩ := table_call hs hcall
      exact ⟨hwf, hsound, trivial⟩
  | returned scan_success migration_required =>
    simp only [hphase] at h
    cases h

theorem scanInv_step (hlimit : 1 ≤ args.limit) {e : RemoteScanLabel K α} (hs : s.ScanInv args)
    (hok : s.LocksWhatItChecked args e) (h : s.step ctx host scanner args e = some s') :
    s'.ScanInv args := by
  cases e with
  | other e =>
    simp only [step, map_eq_some_iff] at h
    obtain ⟨inserts, hstep, rfl⟩ := h
    exact scanInv_other hs hstep
  | scan =>
    refine scanInv_scanStep hs ?_ hok h
    intro key row hphase
    obtain ⟨hf, hreal⟩ := fetches_of_locking hphase hok
    exact stopsAt_of_last hs (fun hzero => absurd hzero (by omega)) hf hreal

theorem scanInv_start {inserts : InsertSystem K α} (hready : inserts.Ready)
    (hsound : Sound inserts.table.keys inserts.table.info) :
    (RemoteScanSystem.mk inserts (start K)).ScanInv args :=
  ⟨hready.wellFormed, hsound, hready.guarded .., within_nil, rfl⟩

-- A scan that returns success has found the rows of its range, and until it lets go of them
-- no insert up to the next row gets through.
theorem remote_scan_sees_no_phantoms (ctx : Context) (host scanner : Host) (args : ScanArgs K)
    (hlimit : 1 ≤ args.limit) {inserts : InsertSystem K α} (hready : inserts.Ready)
    (hsound : Sound inserts.table.keys inserts.table.info) {s : RemoteScanSystem K α}
    (hreach : Reach (step ctx host scanner args) (LocksWhatItChecked args)
      ⟨inserts, start K⟩ s)
    {migration_required : Bool} (hreturn : s.scan.phase = .returned true migration_required) :
    s.scan.scan_results.map Prod.fst = args.rows s.table.keys ∧
    ∃ next row, s.scan.next_row_entity = some (next, row) ∧
      ∀ key, args.min_key ≤ key → key ≤ next → ∀ value t ok,
        s.table.insert_and_update_next_key_info host key value true = some (t, ok) →
        ok = false ∧ t.keys = s.table.keys := by
  have hs := hreach.invariant (P := ScanInv args) (scanInv_start hready hsound)
    fun _ _ _ hs hok h => scanInv_step hlimit hs hok h
  obtain ⟨next, hnext, hfound⟩ : ∃ next, s.scan.next_row_entity.map Prod.fst = some next ∧
      s.Found args next := by
    have hprogress := hs.progress
    rw [Progress, hreturn] at hprogress
    exact hprogress
  refine ⟨eq_rows hfound.guarded hfound.within hfound.stops, ?_⟩
  rw [map_eq_some_iff] at hnext
  obtain ⟨⟨next', row⟩, hnext, rfl⟩ := hnext
  refine ⟨next', row, hnext, fun key hmin hle value t ok hinsert => ?_⟩
  have hins := (insert_and_update_next_key_info_spec hs.wellFormed hinsert).1
  cases hins with
  | refused hkeys hinfo => exact ⟨rfl, hkeys⟩
  | unlocked hkey hlock => cases hlock
  | locked hkey hlock hn hfree =>
    have hrefuses := hfound.guarded.refuses hkey hmin
      (mem_append_right _ (mem_singleton_self next')) hle hn 31
    exact absurd (hfree.symm.trans hrefuses) (by decide)

section Example

def fourKeys : InsertSystem Nat Nat :=
  ⟨load {1, 5, 9, 12} (fun _ => ⟨0⟩) (fun _ => ⟨0, 0, 0, 0⟩) id, []⟩

def moveAllIn : List (RemoteScanLabel Nat Nat) :=
  [.other (.moveIn 1 ⟨some 1, some (64, ⟨0, 0, 0, 0⟩)⟩ false),
    .other (.moveIn 5 ⟨some 2, some (128, ⟨0, 0, 0, 0⟩)⟩ false),
    .other (.moveIn 9 ⟨some 3, some (192, ⟨0, 0, 0, 0⟩)⟩ false),
    .other (.moveIn 12 ⟨some 4, some (256, ⟨0, 0, 0, 0⟩)⟩ false)]

def twoToEight : ScanArgs Nat := ⟨2, 8, 10, .SCAN_FOR_READ⟩

theorem ready_fourKeys : fourKeys.Ready where
  wellFormed := wellFormed_load ..
  mem := nofun
  writer := nofun
  nodup := nodup_nil

theorem insert_before_scan_is_seen :
    ∃ s : RemoteScanSystem Nat Nat,
      Reach (step ⟨true, true⟩ 0 1 twoToEight) (LocksWhatItChecked twoToEight)
        ⟨fourKeys, start Nat⟩ s ∧
      s.scan.scan_results.map Prod.fst = twoToEight.rows s.table.keys := by
  obtain ⟨s, hreach, hreturn⟩ := exists_reach_of_run (step ⟨true, true⟩ 0 1 twoToEight)
    (LocksWhatItChecked twoToEight) ⟨fourKeys, start Nat⟩
    (moveAllIn ++ [.other (.insert 3 30), .other (.commitInsert 3), .other (.releaseNext 3 7),
      .other (.moveIn 3 ⟨some 5, some (320, ⟨0, 0, 0, 0⟩)⟩ false),
      .scan, .scan, .scan, .scan, .scan, .scan, .scan, .scan, .scan])
    (fun s => s.scan.phase = .returned true false) (by decide +kernel)
  exact ⟨s, hreach, (remote_scan_sees_no_phantoms ⟨true, true⟩ 0 1 twoToEight (by decide)
    ready_fourKeys (sound_load ..) hreach hreturn).1⟩

-- One that comes between the test of the bits and the lock is not.
theorem insert_between_test_and_lock_is_missed :
    ∃ s : RemoteScanSystem Nat Nat,
      Reach (step ⟨true, true⟩ 0 1 twoToEight) (fun _ _ => True)
        ⟨fourKeys, start Nat⟩ s ∧
      s.scan.phase = .returned true false ∧ s.scan.scan_results.map Prod.fst = [5] ∧
      3 ∈ s.table.keys :=
  exists_reach_of_run _ _ _
    (moveAllIn ++ [.scan, .scan, .other (.insert 3 30), .other (.commitInsert 3),
      .other (.releaseNext 3 7), .scan, .scan, .scan, .scan]) _ (by decide +kernel)

end Example

end RemoteScanSystem

end Tigon.TwoPLPasha
