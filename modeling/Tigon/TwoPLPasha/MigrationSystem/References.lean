import Tigon.Library.Census
import Tigon.TwoPLPasha.MigrationSystem.Rows

namespace Tigon.TwoPLPasha

open Function Option RowState MigrationSystem RemoteCall Tigon.Library
open RowState (EditsBits FillsAs Leaves)
open TwoPLPashaSharedDataSCC (valid_flag_index)

def RemoteCall.Holds {ρ : Type} (row : ρ) : RemoteCall ρ → Prop
  | .accessing y _ | .holding y | .releasing y _ => y = row
  | _ => False

def RemoteCall.row? {ρ : Type} : RemoteCall ρ → Option ρ
  | .idle => none
  | .found y _ _ | .accessing y _ | .holding y | .releasing y _ => some y

-- Whatever a pointer leads to, it is valid only as long as the row is placed there.
def RowState.Known {α : Type} (r : RowState α) (p : Ptr) : Prop :=
  (r.sccOf p).valid = true → r.block = some (r.smeta p).get_scc_data

def RemoteCall.Relies {ρ α : Type} (row : ρ) (allocated : List Ptr) (r : RowState α) :
    RemoteCall ρ → Prop
  | .found y p _ => y = row → p ∈ allocated ∧ r.Known p
  | .accessing y o => y = row → r.block = some o
  | .releasing y p => y = row → p ∈ allocated ∧ ∀ o ∈ r.block, (r.smeta p).get_scc_data = o
  | _ => True

-- The references to a row are counted in its block while it is migrated, and there are none to a
-- row that can still be moved in.
structure Accounted {ρ α C : Type} (row : ρ) (deleted : Prop) (allocated : List Ptr)
    (calls : C → RemoteCall ρ) (r : RowState α) : Prop where
  wf : r.WellFormed
  cxl : ∀ p ∈ r.cxl, p ∈ allocated
  gone : deleted → r.lmeta.is_migrated = false
  relies : ∀ c, (calls c).Relies row allocated r
  count : ∀ o ∈ r.block, AtMost (fun c => (calls c).Holds row) (r.scc o).ref_cnt.toNat
  unheld : r.block = none → ¬ deleted → ∀ c, ¬ (calls c).Holds row

section Rows

variable {ρ α C : Type} [DecidableEq C] {row : ρ} {deleted : Prop} {allocated : List Ptr}
  {calls : C → RemoteCall ρ} {r r' : RowState α} {c : C} {call : RemoteCall ρ} {p : Ptr}

theorem RemoteCall.Relies.congr (h : call.Relies row allocated r) (hblock : r'.block = r.block)
    (hget : ∀ p, (r'.smeta p).get_scc_data = (r.smeta p).get_scc_data) (hscc : r'.scc = r.scc) :
    call.Relies row allocated r' := by
  cases call with
  | idle | holding _ => trivial
  | found y p inc =>
    intro hrow
    obtain ⟨hp, hknown⟩ := h hrow
    refine ⟨hp, fun hvalid => ?_⟩
    rw [sccOf, hscc, hget] at hvalid
    rw [hblock, hget]
    exact hknown hvalid
  | accessing y o =>
    intro hrow
    rw [hblock]
    exact h hrow
  | releasing y p =>
    intro hrow
    rw [hblock, hget]
    exact h hrow

omit [DecidableEq C] in
theorem Accounted.editsBits (h : Accounted row deleted allocated calls r) (he : EditsBits r r') :
    Accounted row deleted allocated calls r' := by
  refine ⟨h.wf.editsBits he, by rw [he.cxl]; exact h.cxl, by rw [he.lmeta]; exact h.gone,
    fun c => (h.relies c).congr he.block he.get_scc_data he.scc, ?_,
    by rw [he.block]; exact h.unheld⟩
  rw [he.block, he.scc]
  exact h.count

theorem RemoteCall.Relies.mono {allocated' : List Ptr} (h : call.Relies row allocated r)
    (hsub : ∀ p ∈ allocated, p ∈ allocated') : call.Relies row allocated' r := by
  cases call with
  | idle | holding _ => trivial
  | accessing y o => exact h
  | found y p inc | releasing y p => exact fun hrow => ⟨hsub p (h hrow).1, (h hrow).2⟩

omit [DecidableEq C] in
theorem Accounted.mono {allocated' : List Ptr} (h : Accounted row deleted allocated calls r)
    (hsub : ∀ p ∈ allocated, p ∈ allocated') : Accounted row deleted allocated' calls r :=
  ⟨h.wf, fun p hp => hsub p (h.cxl p hp), h.gone, fun c => (h.relies c).mono hsub, h.count,
    h.unheld⟩

theorem Accounted.setCall (h : Accounted row deleted allocated calls r)
    (hrelies : call.Relies row allocated r) (hholds : call.Holds row ↔ (calls c).Holds row) :
    Accounted row deleted allocated (Function.update calls c call) r := by
  have hsame : ∀ d, (Function.update calls c call d).Holds row ↔ (calls d).Holds row := by
    intro d
    by_cases hd : d = c
    · subst hd
      rw [update_self]
      exact hholds
    · rw [update_of_ne hd]
  refine ⟨h.wf, h.cxl, h.gone, fun d => ?_,
    fun o ho => (h.count o ho).mono fun d => (hsame d).mp, fun hb hd d => ?_⟩
  · by_cases hd : d = c
    · subst hd
      rw [update_self]
      exact hrelies
    · rw [update_of_ne hd]
      exact h.relies d
  · rw [hsame]
    exact h.unheld hb hd d

variable {g : TwoPLPashaSharedDataSCC α → TwoPLPashaSharedDataSCC α}

theorem RemoteCall.Relies.onScc (h : call.Relies row allocated r)
    (hg : ∀ d, (g d).valid = true → d.valid = true) : call.Relies row allocated (r.onScc p g) := by
  cases call with
  | idle | holding _ => trivial
  | accessing y o | releasing y q => exact h
  | found y q inc =>
    intro hrow
    obtain ⟨hq, hknown⟩ := h hrow
    refine ⟨hq, fun hvalid => hknown ?_⟩
    by_cases hblock : (r.smeta q).get_scc_data = (r.smeta p).get_scc_data
    · have hedit : (r.onScc p g).sccOf q = g (r.sccOf q) := by
        simp only [sccOf, onScc, hblock, update_self]
      rw [hedit] at hvalid
      exact hg _ hvalid
    · have hedit : (r.onScc p g).sccOf q = r.sccOf q :=
        update_of_ne hblock _ _
      rw [hedit] at hvalid
      exact hvalid

theorem Accounted.onScc (h : Accounted row deleted allocated calls r)
    (hg : ∀ d, (g d).valid = true → d.valid = true) (hrelies : call.Relies row allocated r)
    (hcount : ∀ o ∈ r.block, AtMost (fun d => (Function.update calls c call d).Holds row)
      ((r.onScc p g).scc o).ref_cnt.toNat)
    (hunheld : r.block = none → ¬ deleted → ¬ call.Holds row) :
    Accounted row deleted allocated (Function.update calls c call) (r.onScc p g) := by
  refine ⟨wellFormed_onScc h.wf _, h.cxl, h.gone, fun d => ?_, hcount, fun hb hd d => ?_⟩
  · by_cases hdc : d = c
    · subst hdc
      rw [update_self]
      exact hrelies.onScc hg
    · rw [update_of_ne hdc]
      exact (h.relies d).onScc hg
  · by_cases hdc : d = c
    · subst hdc
      rw [update_self]
      exact hunheld hb hd
    · rw [update_of_ne hdc]
      exact h.unheld hb hd d

theorem scc_onScc_of_eq {o : Word} (ho : (r.smeta p).get_scc_data = o) :
    (r.onScc p g).scc o = g (r.scc o) := by
  subst ho
  exact update_self ..

theorem holds_setCall (d : C) (hd : (Function.update calls c call d).Holds row) :
    d = c ∨ (calls d).Holds row := by
  by_cases hdc : d = c
  · exact .inl hdc
  · rw [update_of_ne hdc] at hd
    exact .inr hd

theorem holds_setCall_of_not (hcall : ¬ call.Holds row) (d : C)
    (hd : (Function.update calls c call d).Holds row) : d ≠ c ∧ (calls d).Holds row := by
  have hdc : d ≠ c := by
    rintro rfl
    rw [update_self] at hd
    exact hcall hd
  rw [update_of_ne hdc] at hd
  exact ⟨hdc, hd⟩

section

variable (h : Accounted row deleted allocated calls r)

include h

theorem Accounted.gain {o : Word} (hblock : r.block = some o) (hp : (r.smeta p).get_scc_data = o)
    (hcount : (r.scc o).ref_cnt ≠ 255) (hrelies : call.Relies row allocated r) :
    Accounted row deleted allocated (Function.update calls c call)
      (r.onScc p fun d => d.inc_ref_cnt) := by
  refine h.onScc (fun _ => id) hrelies ?_ ?_
  · intro o' ho'
    obtain rfl : o' = o := some_inj.mp (ho'.symm.trans hblock)
    have hnat : ((r.scc o').ref_cnt + 1).toNat = (r.scc o').ref_cnt.toNat + 1 := by bv_omega
    rw [scc_onScc_of_eq hp]
    change AtMost _ ((r.scc o').ref_cnt + 1).toNat
    rw [hnat]
    exact (h.count o' ho').gain holds_setCall
  · intro hnone
    rw [hnone] at hblock
    cases hblock

theorem Accounted.latch (hcall : calls c = .found row p true) (hvalid : (r.sccOf p).valid = true)
    (hcount : (r.sccOf p).ref_cnt ≠ 255) :
    Accounted row deleted allocated
      (Function.update calls c (.accessing row (r.smeta p).get_scc_data))
      (r.onScc p fun d => d.inc_ref_cnt) := by
  have hrelies := h.relies c
  rw [hcall] at hrelies
  have hblock := (hrelies rfl).2 hvalid
  exact h.gain hblock rfl hcount fun _ => hblock

theorem Accounted.decrease (hcall : calls c = .releasing row p) :
    Accounted row deleted allocated (Function.update calls c .idle)
      (r.decrease_reference_count_via_ptr p) := by
  have hholds : (calls c).Holds row := by
    rw [hcall]
    rfl
  have hrelies := h.relies c
  rw [hcall] at hrelies
  refine h.onScc (fun _ => id) trivial ?_ (fun _ _ => id)
  intro o ho
  have hcount := h.count o ho
  have hpos := hcount.pos hholds
  have hnat : ((r.scc o).ref_cnt - 1).toNat = (r.scc o).ref_cnt.toNat - 1 := by bv_omega
  rw [scc_onScc_of_eq ((hrelies rfl).2 o ho)]
  change AtMost _ ((r.scc o).ref_cnt - 1).toNat
  rw [hnat]
  exact hcount.loss hholds (holds_setCall_of_not id)

theorem Accounted.invalidate :
    Accounted row deleted allocated (Function.update calls c .idle)
      (r.onScc p fun d => d.clear_flag valid_flag_index) := by
  refine h.onScc (fun d hd => absurd hd (by simp)) trivial ?_ (fun _ _ => id)
  intro o ho
  have hsame : ((r.onScc p fun d => d.clear_flag valid_flag_index).scc o).ref_cnt
      = (r.scc o).ref_cnt := by
    by_cases hp : (r.smeta p).get_scc_data = o
    · rw [scc_onScc_of_eq hp]
      rfl
    · exact congrArg _ (update_of_ne (Ne.symm hp) _ _)
  rw [hsame]
  exact (h.count o ho).mono fun d hd => (holds_setCall_of_not id d hd).2

end

section

omit [DecidableEq C]

theorem Accounted.leaves {deleted' : Prop} (h : Accounted row deleted allocated calls r)
    (hleaves : Leaves r r') (hwf : r'.WellFormed) (hidle : ∀ c o, calls c ≠ .accessing row o)
    (hunheld : ¬ deleted' → ∀ c, ¬ (calls c).Holds row) :
    Accounted row deleted' allocated calls r' := by
  have hblock := block_of_not_migrated hleaves.migrated
  refine ⟨hwf, by simp [hleaves.cxl], fun _ => hleaves.migrated, fun c => ?_, by simp [hblock],
    fun _ => hunheld⟩
  have hrelies := h.relies c
  cases hcall : calls c with
  | idle | holding _ => trivial
  | accessing y o =>
    rintro rfl
    exact absurd hcall (hidle c o)
  | releasing y p =>
    intro hrow
    rw [hcall] at hrelies
    exact ⟨(hrelies hrow).1, by simp [hblock]⟩
  | found y p inc =>
    intro hrow
    rw [hcall] at hrelies
    obtain ⟨hp, hknown⟩ := hrelies hrow
    refine ⟨hp, fun hvalid => ?_⟩
    rw [sccOf, hleaves.get_scc_data] at hvalid
    by_cases hplace : r.block = some (r.smeta p).get_scc_data
    · rw [hleaves.valid _ hplace] at hvalid
      cases hvalid
    · rw [hleaves.scc _ hplace] at hvalid
      exact absurd (hknown hvalid) hplace

theorem Accounted.moveOut (h : Accounted row deleted allocated calls r) (hleaves : Leaves r r')
    (hwf : r'.WellFormed) (hm : r.lmeta.is_migrated = true)
    (hcount : (r.sccOf r.lmeta.migrated_row).ref_cnt.toNat = 0) :
    Accounted row deleted allocated calls r' := by
  have hatMost := h.count _ (h.wf.block hm)
  have hnone : ∀ c, ¬ (calls c).Holds row := by
    intro c hholds
    have hpos := hatMost.pos hholds
    rw [sccOf] at hcount
    omega
  refine h.leaves hleaves hwf (fun c o hcall => hnone c ?_) fun _ => hnone
  rw [hcall]
  rfl

theorem Accounted.delete {is_local_delete : Bool} (h : Accounted row deleted allocated calls r)
    (hvalid : is_local_delete = false → r.lmeta.is_migrated = true →
      (r.sccOf r.lmeta.migrated_row).get_flag valid_flag_index = false)
    (hidle : ∀ c o, calls c ≠ .accessing row o) :
    Accounted row True allocated calls (r.delete is_local_delete) := by
  have hwf := wellFormed_delete h.wf is_local_delete
  cases hm : r.lmeta.is_migrated with
  | true =>
    have hleaves := delete_leaves h.wf hm is_local_delete fun hloc => hvalid hloc hm
    exact h.leaves hleaves hwf hidle fun hnot => absurd trivial hnot
  | false =>
    rw [delete_of_not_migrated hm] at hwf ⊢
    exact ⟨hwf, h.cxl, fun _ => hm, fun c => (h.relies c).congr rfl (fun _ => rfl) rfl, h.count,
      fun _ hnot => absurd trivial hnot⟩

end

variable {ctx : Context} {alloc : Allocation α} {inc : Bool}

theorem RemoteCall.Relies.fills (h : call.Relies row allocated r) (hfree : ¬ call.Holds row)
    (halloc : ∀ p ∈ alloc.smeta, p ∉ allocated) (hfills : FillsAs ctx alloc inc r r' .SUCCESS) :
    call.Relies row allocated r' := by
  cases call with
  | idle | holding _ => trivial
  | accessing y o | releasing y p => exact fun hrow => absurd hrow hfree
  | found y q inc =>
    intro hrow
    obtain ⟨hq, hknown⟩ := h hrow
    refine ⟨hq, fun hvalid => ?_⟩
    cases hfills with
    | @success p o n hm hp _ hmigrated hblock _ _ hstale hscc _ =>
      have hne : q ≠ p := by
        rintro rfl
        exact halloc q hp hq
      have hplace : r'.block = some o := (if_pos hmigrated).trans hblock
      rw [sccOf, hstale q hne] at hvalid
      rw [hplace, hstale q hne]
      -- a block that is not filled is not valid, the row was not migrated
      by_contra hother
      have hne' : (r.smeta q).get_scc_data ≠ o := fun heq => hother (by rw [heq])
      rw [hscc _ hne'] at hvalid
      have hnone := hknown hvalid
      rw [block_of_not_migrated hm] at hnone
      cases hnone

theorem Accounted.fills (h : Accounted row deleted allocated calls r) (hwf : r'.WellFormed)
    (hfills : FillsAs ctx alloc inc r r' .SUCCESS) (hdeleted : ¬ deleted)
    (halloc : ∀ p ∈ alloc.smeta, p ∉ allocated)
    (hcount : inc = true → r.countForMoveIn ctx alloc ≠ some 255)
    (hcall : call = if inc = true then .holding row else .idle) :
    Accounted row deleted (alloc.smeta.toList ++ allocated) (Function.update calls c call) r' := by
  obtain @⟨p, o, n, hm, hp, hn, hmigrated, hdata, hcxl, -, -, -, href⟩ := id hfills
  have hfree := h.unheld (block_of_not_migrated hm) hdeleted
  have hblock : r'.block = some o := (if_pos hmigrated).trans hdata
  have hsub : ∀ q ∈ allocated, q ∈ alloc.smeta.toList ++ allocated :=
    fun q hq => List.mem_append_right _ hq
  refine ⟨hwf, ?_, fun hd => absurd hd hdeleted, fun d => ?_, ?_, ?_⟩
  · intro q hq
    obtain rfl : p = q := some_inj.mp (hcxl.symm.trans hq)
    simp [hp]
  · by_cases hd : d = c
    · subst hd
      rw [update_self, hcall]
      split <;> trivial
    · rw [update_of_ne hd]
      exact ((h.relies d).fills (hfree d) halloc hfills).mono hsub
  · intro o' ho'
    obtain rfl : o = o' := some_inj.mp (hblock.symm.trans ho')
    rw [href]
    cases inc with
    | false =>
      subst hcall
      exact AtMost.none fun d hd => hfree d (holds_setCall_of_not id d hd).2
    | true =>
      have hlow : n ≠ 255 := fun heq => hcount rfl (heq ▸ hn)
      have hnat : (n + 1).toNat = n.toNat + 1 := by bv_omega
      rw [if_pos rfl, hnat]
      exact (AtMost.none hfree).gain holds_setCall
  · intro hnone
    rw [hblock] at hnone
    cases hnone

theorem Accounted.moveIn {res : migration_result} (h : Accounted row deleted allocated calls r)
    (hwf : r'.WellFormed) (hfills : FillsAs ctx alloc inc r r' res)
    (hdeleted : res ≠ .FAIL_OOM → ¬ deleted) (halloc : ∀ p ∈ alloc.smeta, p ∉ allocated)
    (hcall : calls c = .idle) (hcount : inc = true → r.countForMoveIn ctx alloc ≠ some 255)
    (hnext : call = if inc = true ∧ res ≠ .FAIL_OOM then .holding row else .idle) :
    Accounted row deleted (alloc.smeta.toList ++ allocated) (Function.update calls c call) r' := by
  have hstays : Accounted row deleted (alloc.smeta.toList ++ allocated)
      (Function.update calls c .idle) r := by
    have hrelies : (idle : RemoteCall ρ).Relies row allocated r := trivial
    refine (h.setCall hrelies ?_).mono fun p hp => List.mem_append_right _ hp
    rw [hcall]
  cases res with
  | SUCCESS => exact h.fills hwf hfills (hdeleted nofun) halloc hcount (by simpa using hnext)
  | FAIL_OOM =>
    cases hfills with
    | outOfMemory hr' =>
      rw [hnext, if_neg (by simp), hr']
      exact hstays
  | FAIL_ALREADY_IN_CXL =>
    cases hfills with
    | already hm hr' =>
      cases inc with
      | false =>
        rw [hnext, if_neg (by simp), hr', if_neg (by simp)]
        exact hstays
      | true =>
        rw [hnext, if_pos ⟨rfl, nofun⟩, hr', if_pos rfl]
        have hlow : (r.sccOf r.lmeta.migrated_row).ref_cnt ≠ 255 := by
          intro heq
          refine hcount rfl ?_
          rw [countForMoveIn, if_pos hm, heq]
        have hrelies : (holding row).Relies row allocated r := trivial
        exact (h.gain (h.wf.block hm) rfl hlow hrelies).mono
          fun p hp => List.mem_append_right _ hp

omit [DecidableEq C] in
theorem Accounted.congr_deleted {deleted' : Prop} (h : Accounted row deleted allocated calls r)
    (hiff : deleted' ↔ deleted) : Accounted row deleted' allocated calls r :=
  ⟨h.wf, h.cxl, fun hd => h.gone (hiff.mp hd), h.relies, h.count,
    fun hb hd => h.unheld hb fun hd' => hd (hiff.mpr hd')⟩

theorem RemoteCall.relies_of_elsewhere (h : call.row? ≠ some row) :
    call.Relies row allocated r := by
  cases call with
  | idle | holding _ => trivial
  | found y p inc | accessing y o | releasing y p => exact fun hrow => absurd (congrArg some hrow) h

theorem RemoteCall.row?_of_holds (h : call.Holds row) : call.row? = some row := by
  cases call with
  | idle | found y p inc => cases h
  | accessing y o | holding y | releasing y p => exact congrArg some h

theorem Accounted.elsewhere (h : Accounted row deleted allocated calls r)
    (hold : (calls c).row? ≠ some row) (hnew : call.row? ≠ some row) :
    Accounted row deleted allocated (Function.update calls c call) r :=
  h.setCall (relies_of_elsewhere hnew)
    ⟨fun hh => absurd (row?_of_holds hh) hnew, fun hh => absurd (row?_of_holds hh) hold⟩

end Rows

section Partition

open Table (Replaces Agrees TakesOut)
open Tigon.Pasha.MigrationManager (MovesOut)

variable {T K α C : Type} [DecidableEq T] [LinearOrder K] [DecidableEq C]

-- Rows that are deleted, and not only never there, do not come back.
def IsDeleted (cfg : PartitionConfig T) (tables : T → Table K α) (row : T × K) : Prop :=
  cfg.keepsNeighbours row.1 = true ∧ row.2 ∉ (tables row.1).keys

def AllAccounted (cfg : PartitionConfig T) (tables : T → Table K α)
    (calls : C → RemoteCall (T × K)) :
    Prop :=
  ∀ row, Accounted row (IsDeleted cfg tables row) (tables row.1).allocated calls (rowOf tables row)

variable {cfg : PartitionConfig T} {tables : T → Table K α} {calls calls' : C → RemoteCall (T × K)}
  {row : T × K} {t : Table K α} {r : RowState α} {c : C} {call : RemoteCall (T × K)} {p : Ptr}

omit [DecidableEq T] [LinearOrder K] [DecidableEq C] in
theorem AllAccounted.rowsWellFormed (h : AllAccounted cfg tables calls) : RowsWellFormed tables :=
  fun row => (h row).wf

omit [LinearOrder K] [DecidableEq C] in
theorem AllAccounted.update (h : AllAccounted cfg tables calls)
    (hrep : Replaces (tables row.1) t row.2 r)
    (hkeys : ∀ k, k ≠ row.2 → (k ∈ t.keys ↔ k ∈ (tables row.1).keys))
    (hsub : ∀ p ∈ (tables row.1).allocated, p ∈ t.allocated)
    (hcalls : ∀ y D A (R : RowState α), y ≠ row → Accounted y D A calls R →
      Accounted y D A calls' R)
    (hrow : Accounted row (IsDeleted cfg (Function.update tables row.1 t) row) t.allocated
      calls' r) :
    AllAccounted cfg (Function.update tables row.1 t) calls' := by
  intro y
  by_cases hy : y = row
  · subst hy
    rw [update_self]
    exact hrow.editsBits (rowOf_self hrep)
  · have hother := hcalls y _ _ _ hy ((h y).editsBits (rowOf_other hrep hy))
    by_cases htable : y.1 = row.1
    · have hkey : y.2 ≠ row.2 := fun hkey => hy (Prod.ext htable hkey)
      have hdeleted : IsDeleted cfg (Function.update tables row.1 t) y ↔
        IsDeleted cfg tables y := by
        rw [IsDeleted, IsDeleted, htable, update_self, hkeys _ hkey]
      rw [htable] at hother
      rw [htable, update_self]
      exact (hother.mono hsub).congr_deleted hdeleted
    · have hdeleted : IsDeleted cfg (Function.update tables row.1 t) y ↔
        IsDeleted cfg tables y := by
        rw [IsDeleted, IsDeleted, update_of_ne htable]
      rw [update_of_ne htable]
      exact hother.congr_deleted hdeleted

omit [DecidableEq T] [LinearOrder K] in
theorem AllAccounted.setCall (h : AllAccounted cfg tables calls)
    (hold : ∀ y ∈ (calls c).row?, y = row) (hnew : ∀ y ∈ call.row?, y = row)
    (hrelies : call.Relies row (tables row.1).allocated (rowOf tables row))
    (hholds : call.Holds row ↔ (calls c).Holds row) :
    AllAccounted cfg tables (Function.update calls c call) := by
  intro y
  by_cases hy : y = row
  · subst hy
    exact (h y).setCall hrelies hholds
  · exact (h y).elsewhere (fun hc => hy (hold y hc)) fun hc => hy (hnew y hc)

theorem AllAccounted.setRow (h : AllAccounted cfg tables calls)
    (hold : ∀ y ∈ (calls c).row?, y = row) (hnew : ∀ y ∈ call.row?, y = row)
    (hrow : Accounted row (IsDeleted cfg tables row) (tables row.1).allocated
      (Function.update calls c call) r) :
    AllAccounted cfg (setRow tables row r) (Function.update calls c call) := by
  refine h.update (Table.replaces_onRow (tables row.1) row.2 r) (fun _ _ => Iff.rfl)
    (fun _ => id) (fun y D A R hy hR => ?_) (hrow.congr_deleted ?_)
  · exact hR.elsewhere (fun hc => hy (hold y hc)) fun hc => hy (hnew y hc)
  · rw [IsDeleted, IsDeleted, update_self]
    rfl

variable {alloc : Allocation α}

omit [LinearOrder K] in
theorem AllAccounted.moveIn {inc : Bool} {res : migration_result}
    (h : AllAccounted cfg tables calls) (hmoves : MovesRowIn cfg alloc inc tables row t res)
    (halloc : (tables row.1).admits alloc) (hidle : calls c = .idle)
    (hcount : inc = true → (rowOf tables row).countForMoveIn cfg.ctx alloc ≠ some 255) :
    AllAccounted cfg (Function.update tables row.1 t)
      (Function.update calls c (afterMoveIn row inc res)) := by
  obtain ⟨r, hfills, hwf, hrep⟩ := hmoves.fills
  have hnew : ∀ y ∈ (afterMoveIn row inc res).row?, y = row := by
    intro y hy
    rw [afterMoveIn] at hy
    split at hy
    · exact (some_inj.mp hy).symm
    · cases hy
  have hrow := (h row).moveIn hwf hfills
    (fun hres hdeleted => hdeleted.2 (hmoves.mem hres hdeleted.1))
    (fun p hp => (halloc.1 p hp).2) hidle hcount rfl
  refine h.update hrep (fun _ _ => by rw [hmoves.keys]) (fun p hp => ?_)
    (fun y D A R hy hR => ?_) ?_
  · rw [hmoves.allocated]
    exact List.mem_append_right _ hp
  · exact hR.elsewhere (by rw [hidle]; nofun) fun hc => hy (hnew y hc)
  · rw [hmoves.allocated]
    refine hrow.congr_deleted ?_
    rw [IsDeleted, IsDeleted, update_self, hmoves.keys]

section

omit [DecidableEq C]

theorem AllAccounted.moveOut (h : AllAccounted cfg tables calls) (row : T × K) :
    AllAccounted cfg ((callbacks cfg alloc).move_from_shared_region_to_partition row tables).1
      calls := by
  have htakes := @Table.move_from_shared_region_to_partition_takesOut T K α _ (tables row.1) row.2
    cfg row.1 (h row).wf
  change AllAccounted cfg (Function.update tables row.1
    ((tables row.1).move_from_shared_region_to_partition cfg row.1 row.2).1) calls
  generalize ((tables row.1).move_from_shared_region_to_partition cfg row.1 row.2).1 = t at htakes
  generalize ((tables row.1).move_from_shared_region_to_partition cfg row.1 row.2).2 = b at htakes
  have hdeleted : t.keys = (tables row.1).keys →
      (IsDeleted cfg (Function.update tables row.1 t) row ↔ IsDeleted cfg tables row) := by
    intro hkeys
    rw [IsDeleted, IsDeleted, update_self, hkeys]
  have hagrees : Agrees (tables row.1) t →
      AllAccounted cfg (Function.update tables row.1 t) calls := by
    intro ha
    refine h.update (ha.replaces_self row.2) (fun _ _ => by rw [ha.keys])
      (fun _ hp => by rw [ha.allocated]; exact hp) (fun _ _ _ _ _ => id) ?_
    rw [ha.allocated]
    exact (h row).congr_deleted (hdeleted ha.keys)
  cases htakes with
  | inUse ha | absent ha _ => exact hagrees ha
  | leaves hm hcount hleaves hwf hrep hkeys hallocated =>
    refine h.update hrep (fun _ _ => by rw [hkeys]) (fun _ hp => by rw [hallocated]; exact hp)
      (fun _ _ _ _ _ => id) ?_
    rw [hallocated]
    exact ((h row).moveOut hleaves hwf hm hcount).congr_deleted (hdeleted hkeys)

theorem AllAccounted.movesOut {tables' : T → Table K α} (h : AllAccounted cfg tables calls)
    (hmoves : MovesOut (callbacks cfg alloc) tables tables') : AllAccounted cfg tables' calls := by
  induction hmoves with
  | refl => exact h
  | tail _ hstep ih =>
    obtain ⟨row, rfl⟩ := hstep
    exact ih.moveOut row

theorem AllAccounted.delete {is_delete_local : Bool} (h : AllAccounted cfg tables calls)
    (hcan : canDelete cfg tables row is_delete_local)
    (hidle : ∀ c o, calls c ≠ .accessing row o) :
    AllAccounted cfg (Function.update tables row.1
      ((tables row.1).delete_and_update_next_key_info row.2 is_delete_local)) calls := by
  obtain ⟨hkeeps, hkey, hvalid⟩ := hcan
  obtain ⟨hkeys, hallocated, r, he, hrep⟩ :=
    Table.delete_and_update_next_key_info_replaces hkey is_delete_local
  refine h.update hrep (fun k hk => ?_) (fun _ hp => by rw [hallocated]; exact hp)
    (fun _ _ _ _ _ => id) ?_
  · rw [hkeys, Finset.mem_erase]
    exact ⟨fun hm => hm.2, fun hm => ⟨hk, hm⟩⟩
  · rw [hallocated]
    have hrow := (h row).editsBits he
    refine (hrow.delete (fun hloc hm => ?_) hidle).congr_deleted ?_
    · rw [he.sccOf, he.lmeta]
      rw [he.lmeta] at hm
      exact hvalid hloc hm
    · rw [IsDeleted, update_self, hkeys]
      simp [hkeeps]

end

end Partition

end Tigon.TwoPLPasha
