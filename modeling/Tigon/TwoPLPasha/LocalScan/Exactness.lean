import Tigon.BTreeOLC.BPlusTree.Scan
import Tigon.TwoPLPasha.InsertSystem.Guards
import Tigon.TwoPLPasha.LocalScan

namespace Tigon.TwoPLPasha

open Function List RowState Table ScanArgs LocalScan Tigon.Library
open Tigon.BTreeOLC.BPlusTree (Tree Params Mutation walk)

variable {K V α : Type} [LinearOrder K]

def scanProcessor (host : Host) (args : ScanArgs K) (key : K) (_ : V) (is_last_tuple : Bool)
    (s : Table K α × LocalScan K) : (Table K α × LocalScan K) × Bool :=
  let (t, scan, quit) := local_scan_processor host args key is_last_tuple s.1 s.2
  ((t, scan), quit)

-- The local scan of scanRequestHandler over an index that leads to the rows of a table.
def localScan (host : Host) (args : ScanArgs K) (fuel : Nat) (tree : Tree K V) (t : Table K α) :
    Option (Table K α × LocalScan K) :=
  tree.scanForUpdate (scanProcessor host args) fuel args.min_key (t, start args.min_key)

variable {host : Host} {args : ScanArgs K} {t t' : Table K α} {held : List K} {key : K}

-- Of the rows of `t` those of `held` are locked, each once, and the others are as they were.
structure LocksOnly (kind : LockKind) (t : Table K α) (held : List K) (t' : Table K α) : Prop where
  locked : ∀ k ∈ held, t'.lock k = LockView.acquire kind ⟨0, false⟩
  others : ∀ k, k ∉ held → t'.row k = t.row k

omit [LinearOrder K] in
theorem LocksOnly.refl (kind : LockKind) (t : Table K α) : LocksOnly kind t [] t :=
  ⟨by simp, fun _ _ => rfl⟩

theorem LocksOnly.lock (host : Host) (h : LocksOnly args.type.kind t held t')
    (hkey : key ∉ held) (hwf : (t.row key).WellFormed) (husable : (t.row key).view.Usable) :
    (localLock args.type.kind false (t'.row key) host).success = true ∧
      LocksOnly args.type.kind t (held ++ [key]) (t'.onRow key fun _ =>
        (localLock args.type.kind false (t'.row key) host).row) := by
  rw [h.others key hkey]
  have hrefines := localLock_refines hwf args.type.kind false host
  have hlocks : (t.row key).view.localLocks args.type.kind = true :=
    (Bool.and_eq_true _ _).mpr ⟨husable.owner, husable.free args.type.kind⟩
  refine ⟨hrefines.success.trans hlocks, ?_, ?_⟩
  · intro k hk
    by_cases heq : k = key
    · subst heq
      rw [lock, info_onRow, update_self, presence, hrefines.view]
      change (RowView.localLock args.type.kind (t.row k).view).lock = _
      rw [RowView.lock_localLock, if_pos hlocks, husable.unlocked]
    · rw [Table.lock, Table.info_onRow, update_of_ne heq]
      rcases mem_append.mp hk with hk | hk
      · exact h.locked k hk
      · exact absurd (mem_singleton.mp hk) heq
  · intro k hk
    have hne : k ≠ key := fun heq => hk (by simp [heq])
    change update t'.row key _ k = _
    rw [update_of_ne hne]
    exact h.others k fun hmem => hk (mem_append_left _ hmem)

-- A walk over the tuples from min_key on: some of them are found and the one behind them is
-- the next row.
theorem walk_scanProcessor (host : Host) {es : List (K × V)} (scan : LocalScan K)
    (hsorted : es.Pairwise fun a b => a.1 < b.1)
    (hafter : ∀ r ∈ scan.scan_results, ∀ e ∈ es, r < e.1)
    (hmin : ∀ e ∈ es, args.min_key ≤ e.1) (hmax : ∃ e ∈ es, args.max_key < e.1)
    (hwf : ∀ e ∈ es, (t.row e.1).WellFormed) (husable : ∀ e ∈ es, (t.row e.1).view.Usable)
    (hwithin : args.Within scan.scan_results)
    (hlocks : LocksOnly args.type.kind t scan.scan_results t') :
    ∃ found next rest, es.map Prod.fst = found ++ next :: rest ∧
      args.Within (scan.scan_results ++ found) ∧ args.StopsAt (scan.scan_results ++ found) next ∧
      ∃ t'', walk (scanProcessor host args) es (t', scan)
          = ((t'', ⟨scan.scan_results ++ found, some next, .returned true⟩), true) ∧
        LocksOnly args.type.kind t (scan.scan_results ++ found ++ [next]) t'' := by
  induction es generalizing scan t' with
  | nil =>
    obtain ⟨e, he, -⟩ := hmax
    cases he
  | cons e es ih =>
    obtain ⟨key, v⟩ := e
    have hskips : args.skips scan.scan_results key = false := by
      rw [skips, if_pos (hmin _ mem_cons_self)]
      cases hlast : scan.scan_results.getLast? with
      | none => rfl
      | some last =>
        have hlt := hafter last (mem_of_getLast? hlast) _ mem_cons_self
        simpa using hlt
    have hnew : key ∉ scan.scan_results := fun hmem =>
      lt_irrefl key (hafter key hmem _ mem_cons_self)
    obtain ⟨hsuccess, hlocks'⟩ := hlocks.lock host hnew (hwf _ mem_cons_self)
      (husable _ mem_cons_self)
    by_cases hnext : args.locking_next_tuple scan.scan_results key es.isEmpty = true
    · refine ⟨[], key, es.map Prod.fst, rfl, ?_, ?_, t'.onRow key fun _ =>
        (localLock args.type.kind false (t'.row key) host).row, ?_, ?_⟩
      · rwa [append_nil]
      · rw [append_nil]
        refine stopsAt_of_locking_next_tuple hnext ?_
        intro hempty
        obtain ⟨e, he, hgt⟩ := hmax
        rw [isEmpty_iff.mp hempty] at he
        rw [mem_singleton.mp he] at hgt
        exact .inl hgt
      · simp only [walk, scanProcessor, local_scan_processor, hskips, hsuccess, hnext,
          append_nil]
        rfl
      · rw [append_nil]
        exact hlocks'
    · have hwithin' := hwithin.push (eq_false_of_ne_true hnext)
      have hmax' : ∃ e ∈ es, args.max_key < e.1 := by
        obtain ⟨e, he, hgt⟩ := hmax
        rcases mem_cons.mp he with rfl | he
        · exact absurd hgt (not_lt.mpr (hwithin'.max_key key (by simp)))
        · exact ⟨e, he, hgt⟩
      obtain ⟨hfirst, hsorted'⟩ := pairwise_cons.mp hsorted
      obtain ⟨found, next, rest, hes, hwithin'', hstops, t'', hwalk, hlocks''⟩ :=
        ih { scan with scan_results := scan.scan_results ++ [key] } hsorted'
          (fun r hr e he => by
            rcases mem_append.mp hr with hr | hr
            · exact hafter r hr e (mem_cons_of_mem _ he)
            · rw [mem_singleton.mp hr]
              exact hfirst e he)
          (fun e he => hmin e (mem_cons_of_mem _ he)) hmax'
          (fun e he => hwf e (mem_cons_of_mem _ he))
          (fun e he => husable e (mem_cons_of_mem _ he)) hwithin' hlocks'
      have hassoc : scan.scan_results ++ [key] ++ found = scan.scan_results ++ key :: found :=
        append_cons .. |>.symm
      simp only [hassoc] at hwithin'' hstops hlocks'' hwalk
      refine ⟨key :: found, next, rest, by rw [map_cons, hes]; rfl, hwithin'', hstops, t'',
        ?_, hlocks''⟩
      rw [← hwalk]
      simp only [walk, scanProcessor, local_scan_processor, hskips, hsuccess, hnext]
      rfl

theorem guards_of_locksOnly {kind : LockKind} {low : K} {found rest : List K}
    (hsorted : (found ++ rest).Pairwise (· < ·))
    (hmem : ∀ k, k ∈ found ++ rest ↔ k ∈ t.keys ∧ low ≤ k) (hlocks : LocksOnly kind t found t') :
    Guards kind low t.keys t'.lock [] found where
  sorted := (pairwise_append.mp hsorted).1
  low_le := fun k hk => ((hmem k).mp (mem_append_left _ hk)).2
  mem := fun k hk => ((hmem k).mp (mem_append_left _ hk)).1
  covers := by
    intro k hk hlow c hc hle
    rcases mem_append.mp ((hmem k).mpr ⟨hk, hlow⟩) with hfound | hrest
    · exact hfound
    · exact absurd ((pairwise_append.mp hsorted).2.2 c hc k hrest) (not_lt.mpr hle)
  locked := by
    intro k hk
    rw [hlocks.locked k hk]
    exact LockView.held_acquire kind _
  pending_mem := nofun
  writer := nofun
  apart := nofun
  nodup := nodup_nil

section Example

def insertAll (keys : List Nat) : List (Mutation Nat Nat) := keys.map fun k => .insert k (k + 100)

end Example

end Tigon.TwoPLPasha
