import Tigon.TwoPLPasha.CachedSystem.Bits
import Tigon.TwoPLPasha.RowSystem.Freshness

namespace Tigon.TwoPLPasha

open Function RowState RowSystem Tigon.Library

structure RowView.StaysPut {α : Type} (v v' : RowView α) : Prop where
  migrated : v'.migrated = v.migrated
  row : v'.row = v.row
  cxl : v'.cxl = v.cxl
  mod_out : v'.mod_out = v.mod_out
  allocated : v'.allocated = v.allocated

theorem RowView.StaysPut.refl {α : Type} (v : RowView α) : v.StaysPut v :=
  ⟨rfl, rfl, rfl, rfl, rfl⟩

namespace RowSystem

variable {α C : Type} {s : RowSystem α C}

-- Every pointer around was allocated for the row, and only other hosts have one.
structure Known (cfg : Config C) (s : RowSystem α C) : Prop where
  cxl : ∀ p ∈ s.row.cxl, p ∈ s.allocated
  pointer : ∀ c, ∀ p ∈ (s.access c).pointer, p ∈ s.allocated ∧ cfg.host c ≠ cfg.owner

theorem view_withBlock (d : TwoPLPashaSharedDataSCC α) :
    (s.withBlock (s.row.lmeta.scc_data.getD 0) d).row.view =
      { s.row.view with shared := copyOf d } := by
  simp only [withBlock, view, current, update_self]
  rfl

theorem LockInv.withBlock (h : LockInv s) (o : Word) (d : TwoPLPashaSharedDataSCC α) :
    LockInv (s.withBlock o d) :=
  ⟨⟨h.wellFormed.offset, h.wellFormed.scc, h.wellFormed.cxl⟩, h.accounts⟩

theorem Known.of_access [DecidableEq C] {cfg : Config C} {t : RowSystem α C} {c : C} {a : Access α}
    (h : Known cfg s) (hcxl : t.row.view.cxl = s.row.view.cxl)
    (hallocated : t.allocated = s.allocated)
    (hacc : t.access = Function.update s.access c a)
    (ha : ∀ p ∈ a.pointer, p ∈ s.allocated ∧ cfg.host c ≠ cfg.owner) : Known cfg t := by
  refine ⟨fun p hp => ?_, fun d p hp => ?_⟩
  · have hp' : p ∈ t.row.view.cxl := hp
    rw [hcxl] at hp'
    rw [hallocated]
    exact h.cxl p hp'
  · rw [hallocated]
    rw [hacc] at hp
    by_cases hd : d = c
    · subst hd
      rw [update_self] at hp
      exact ha p hp
    · rw [update_of_ne hd] at hp
      exact h.pointer d p hp

theorem Known.of_allocated {cfg : Config C} {t : RowSystem α C} {new : List Ptr} (h : Known cfg s)
    (hcxl : ∀ p ∈ t.row.cxl, p ∈ new ∨ s.row.cxl = some p) (hacc : t.access = s.access)
    (hallocated : t.allocated = new ++ s.allocated) : Known cfg t := by
  refine ⟨fun p hp => ?_, fun c p hp => ?_⟩
  · rw [hallocated, List.mem_append]
    rcases hcxl p hp with hnew | hold
    · exact .inl hnew
    · exact .inr (h.cxl p hold)
  · rw [hacc] at hp
    obtain ⟨hmem, hhost⟩ := h.pointer c p hp
    rw [hallocated, List.mem_append]
    exact ⟨.inr hmem, hhost⟩

end RowSystem

namespace CachedSystem

variable {α C : Type} {s s' : CachedSystem α C}

def block (s : CachedSystem α C) : Word := s.base.row.lmeta.scc_data.getD 0

def memory (s : CachedSystem α C) : α := (s.line s.block).memory.data

def seen (s : CachedSystem α C) (h : Host) : α := ((s.line s.block).view h).data

def bit (s : CachedSystem α C) (h : Host) : Bool := s.base.row.current.scc_bit h

def prepared (s : CachedSystem α C) (h : Host) : α := if s.bit h then s.seen h else s.memory

def preparedBits (s : CachedSystem α C) (host h : Host) : Bool := decide (h = host) || s.bit h

theorem view_withBlock (d : TwoPLPashaSharedDataSCC α) :
    (s.base.withBlock s.block d).row.view =
      { s.base.row.view with shared := copyOf d } :=
  RowSystem.view_withBlock d

variable {p : Ptr}

theorem get_scc_data_eq_block (hwf : s.base.row.WellFormed) (hcur : s.base.row.IsCurrent p) :
    (s.base.row.smeta p).get_scc_data = s.block := by
  obtain ⟨hm, rfl⟩ := hcur
  rw [block, hwf.scc hm]
  rfl

theorem lineFor_view (hwf : s.base.row.WellFormed) (hcur : s.base.row.IsCurrent p) (prepare : Bool)
    (h : Host) :
    ((s.lineFor prepare h p).view h).data = if prepare then s.prepared h else s.seen h := by
  have hblock := get_scc_data_eq_block hwf hcur
  have hbit : (s.base.row.smeta p).scc_bit h = s.bit h := by
    rw [bit, current, hcur.2]
  cases prepare with
  | false =>
    simp only [lineFor, Bool.false_eq_true, if_false, hblock]
    rfl
  | true =>
    simp only [lineFor, if_true, prepare_read, prepared, hblock, hbit]
    split
    · rfl
    · rw [CacheLine.view_clflush_self]
      rfl

theorem lineFor_other (hwf : s.base.row.WellFormed) (hcur : s.base.row.IsCurrent p) (prepare : Bool)
    (h : Host) :
    (s.lineFor prepare h p).memory = (s.line s.block).memory ∧
    ∀ h', h' ≠ h → (s.lineFor prepare h p).view h' = (s.line s.block).view h' := by
  simp only [lineFor, prepare_read, get_scc_data_eq_block hwf hcur]
  split
  · split
    · exact ⟨rfl, fun _ _ => rfl⟩
    · exact ⟨rfl, fun _ hne => CacheLine.view_clflush_of_ne hne⟩
  · exact ⟨rfl, fun _ _ => rfl⟩

theorem line_put_self (t : RowSystem α C) (o : Word)
    (l : CacheLine Host (TwoPLPashaSharedDataSCC α)) : (s.put t o l).line o = l := by
  simp only [line, put, update_self]

structure After (s s' : CachedSystem α C) (h : Host) (publish : Bool) (t : RowSystem α C) :
    Prop where
  base : ∃ scc, s'.base = { t with row := { t.row with scc := scc } }
  unpublished : s'.unpublished = if publish then none else s.unpublished
  seen_self : s'.seen h = t.row.view.shared.data
  seen_other : publish = false → ∀ h', h' ≠ h → s'.seen h' = s.seen h'
  memory : s'.memory = if publish then t.row.view.shared.data else s.memory

variable {h : Host} {publish : Bool}

theorem after_worked {t : RowSystem α C} {o : Word} {l : CacheLine Host (TwoPLPashaSharedDataSCC α)}
    (ho : t.row.lmeta.scc_data.getD 0 = o)
    (hl : publish = false → o = s.block ∧ l.memory = (s.line s.block).memory ∧
      ∀ h', h' ≠ h → l.view h' = (s.line s.block).view h') :
    After s (s.worked h publish t o l) h publish t := by
  have hshared : t.row.view.shared.data = (t.row.scc o).data := by
    rw [← ho]
    rfl
  cases publish with
  | true =>
    have hblock : (s.worked h true t o l).block = o := ho
    have hline : (s.worked h true t o l).line o = (l.store h (t.row.scc o)).clwb h :=
      line_put_self ..
    refine ⟨⟨_, rfl⟩, rfl, ?_, nofun, ?_⟩
    · rw [seen, hblock, hline, CacheLine.view_clwb_self, CacheLine.view_store_self, hshared]
    · rw [memory, hblock, hline, CacheLine.memory_clwb, CacheLine.view_store_self, if_pos rfl,
        hshared]
  | false =>
    obtain ⟨hsame, hmemory, hother⟩ := hl rfl
    have hblock : (s.worked h false t o l).block = o := ho
    have hline : (s.worked h false t o l).line o = l.store h (t.row.scc o) :=
      line_put_self ..
    refine ⟨⟨_, rfl⟩, rfl, ?_, fun _ h' hne => ?_, ?_⟩
    · rw [seen, hblock, hline, CacheLine.view_store_self, hshared]
    · rw [seen, hblock, hline, CacheLine.view_store_of_ne hne, hother h' hne]
      rfl
    · rw [memory, hblock, hline, CacheLine.memory_store, hmemory]
      rfl

variable {prepare : Bool} {f : RowSystem α C → Option (RowSystem α C)}

theorem after_latched (hwf : s.base.row.WellFormed) (hcur : s.base.row.IsCurrent p)
    (hstep : s.latched h p prepare publish f = some s') :
    ∃ d t, d.data = (if prepare then s.prepared h else s.seen h) ∧
      f (s.base.withBlock s.block d) = some t ∧
      (t.row.lmeta.scc_data = s.base.row.lmeta.scc_data → After s s' h publish t) := by
  obtain ⟨t, ht, hs'⟩ := Option.map_eq_some_iff.mp hstep
  rw [get_scc_data_eq_block hwf hcur] at ht hs'
  refine ⟨_, t, lineFor_view hwf hcur prepare h, ht, fun hscc => ?_⟩
  subst hs'
  refine after_worked (by rw [hscc]; rfl) fun _ => ⟨rfl, ?_⟩
  exact lineFor_other hwf hcur prepare h

-- A section on the owner's row, and one on the row as a request has it: either the row is
-- migrated, or all of it is local.
theorem after_owned {cfg : Config C} (hwf : s.base.row.WellFormed)
    (hstep : s.owned cfg prepare publish f = some s') :
    (s.base.row.view.migrated = true ∧
      ∃ d t, d.data = (if prepare then s.prepared cfg.owner else s.seen cfg.owner) ∧
        f (s.base.withBlock s.block d) = some t ∧
        (t.row.lmeta.scc_data = s.base.row.lmeta.scc_data → After s s' cfg.owner publish t)) ∨
    (s.base.row.view.migrated = false ∧ ∃ t, f s.base = some t ∧ s.onBase t = s') := by
  rw [owned] at hstep
  split at hstep
  · rename_i hm
    exact .inl ⟨hm, after_latched hwf ⟨hm, rfl⟩ hstep⟩
  · rename_i hm
    exact .inr ⟨eq_false_of_ne_true hm, Option.map_eq_some_iff.mp hstep⟩

theorem after_through {cfg : Config C} {c : C} (hwf : s.base.row.WellFormed)
    (hcur : s.base.Current (s.base.access c).pointer)
    (hstep : s.through cfg c prepare publish f = some s') :
    (s.base.row.view.migrated = true ∧
      ∃ d t, d.data = (if prepare then s.prepared (hostOf cfg c (s.base.access c).pointer)
          else s.seen (hostOf cfg c (s.base.access c).pointer)) ∧
        f (s.base.withBlock s.block d) = some t ∧
        (t.row.lmeta.scc_data = s.base.row.lmeta.scc_data →
          After s s' (hostOf cfg c (s.base.access c).pointer) publish t)) ∨
    ((s.base.access c).pointer = none ∧ s.base.row.view.migrated = false ∧
      ∃ t, f s.base = some t ∧ s.onBase t = s') := by
  rw [through] at hstep
  split at hstep
  · rename_i p hp
    rw [hp]
    exact .inl ⟨(hcur p hp).1, after_latched hwf (hcur p hp) hstep⟩
  · rename_i hp
    rw [hp]
    rcases after_owned hwf hstep with hmigrated | hlocal
    · exact .inl hmigrated
    · exact .inr ⟨rfl, hlocal⟩

namespace After

variable {h : Host} {publish : Bool} {t : RowSystem α C} (hafter : After s s' h publish t)

include hafter

theorem access : s'.base.access = t.access := by
  obtain ⟨scc, hbase⟩ := hafter.base
  rw [hbase]

theorem payload : s'.base.payload = t.payload := by
  obtain ⟨scc, hbase⟩ := hafter.base
  rw [hbase]

theorem view : s'.base.row.view = { t.row.view with shared := s'.base.row.view.shared } := by
  obtain ⟨scc, hbase⟩ := hafter.base
  rw [hbase]
  rfl

theorem data : s'.base.row.data = t.row.data := by
  obtain ⟨scc, hbase⟩ := hafter.base
  rw [hbase]

theorem bit (h' : Host) : s'.bit h' = t.row.current.scc_bit h' := by
  obtain ⟨scc, hbase⟩ := hafter.base
  rw [CachedSystem.bit, hbase]
  rfl

theorem lockInv (ht : LockInv t) : LockInv s'.base := by
  obtain ⟨scc, hbase⟩ := hafter.base
  rw [hbase]
  exact ⟨⟨ht.wellFormed.offset, ht.wellFormed.scc, ht.wellFormed.cxl⟩, ht.accounts⟩

theorem known {cfg : Config C} (ht : Known cfg t) : Known cfg s'.base := by
  obtain ⟨scc, hbase⟩ := hafter.base
  rw [hbase]
  exact ⟨ht.cxl, ht.pointer⟩

end After

structure Unchanged (s t : CachedSystem α C) : Prop where
  place : s.base.row.view.StaysPut t.base.row.view
  mod_in : t.base.row.view.mod_in = s.base.row.view.mod_in
  data : t.base.row.data = s.base.row.data
  seen : ∀ h, t.seen h = s.seen h
  memory : t.memory = s.memory
  bit : s.base.row.view.migrated = true → ∀ h, t.bit h = s.bit h

structure WorkedOn (s t : CachedSystem α C) (h : Host) : Prop where
  migrated : s.base.row.view.migrated = true
  place : s.base.row.view.StaysPut t.base.row.view
  other : ∀ h', h' ≠ h → t.seen h' = s.seen h'
  memory : t.memory = s.memory

theorem After.workedOn {t : RowSystem α C} (hafter : After s s' h false t)
    (hm : s.base.row.view.migrated = true) (hplace : s.base.row.view.StaysPut t.row.view) :
    WorkedOn s s' h := by
  refine ⟨hm, ?_, hafter.seen_other rfl, hafter.memory⟩
  rw [hafter.view]
  exact ⟨hplace.migrated, hplace.row, hplace.cxl, hplace.mod_out, hplace.allocated⟩

-- Everything a step can do, as far as payloads go.
inductive CachedStep [DecidableEq C] (cfg : Config C) (s : CachedSystem α C) :
    CachedLabel α C → CachedSystem α C → Prop
  | keep {e : CachedLabel α C} {t : CachedSystem α C} (hsame : Unchanged s t)
      (hacc : t.base.access = s.base.access) (hpayload : t.base.payload = s.base.payload)
      (hunpublished : t.unpublished = s.unpublished) : CachedStep cfg s e t
  | look {e : CachedLabel α C} {t : CachedSystem α C} {c : C} {a : Access α}
      (hsame : Unchanged s t) (hc : (s.base.access c).held = none) (ha : a.held = none)
      (hacc : t.base.access = Function.update s.base.access c a)
      (hpayload : t.base.payload = s.base.payload)
      (hunpublished : t.unpublished = s.unpublished) : CachedStep cfg s e t
  | localLock {t : CachedSystem α C} {c : C} {kind : LockKind} {copy ok : Bool}
      (hm : s.base.row.view.migrated = false) (hsame : Unchanged s t)
      (hc : s.base.access c = .idle)
      (hacc : t.base.access = Function.update s.base.access c
        (if ok then .holding kind none none else .idle))
      (hpayload : t.base.payload = s.base.payload)
      (hunpublished : t.unpublished = s.unpublished) :
      CachedStep cfg s (.row (.localLock c kind copy)) t
  | ownerLock {t : CachedSystem α C} {c : C} {kind : LockKind} {copy ok : Bool}
      (hwork : WorkedOn s t cfg.owner) (hself : t.seen cfg.owner = s.prepared cfg.owner)
      (hbit : ∀ h, t.bit h = s.preparedBits cfg.owner h)
      (hdata : t.base.row.view.mod_in = s.base.row.view.mod_in ∧ t.base.row.data = s.base.row.data ∨
        t.base.row.view.mod_in = false ∧ t.base.row.data = s.prepared cfg.owner)
      (hc : s.base.access c = .idle)
      (hacc : t.base.access = Function.update s.base.access c
        (if ok then .holding kind none none else .idle))
      (hpayload : t.base.payload = s.base.payload)
      (hunpublished : t.unpublished = s.unpublished) :
      CachedStep cfg s (.row (.localLock c kind copy)) t
  | remoteLock {t : CachedSystem α C} {c : C} {kind : LockKind} {ok : Bool} {p : Ptr}
      {a : Access α} (hwork : WorkedOn s t (cfg.host c))
      (hself : t.seen (cfg.host c) = s.prepared (cfg.host c))
      (hbit : ∀ h, t.bit h = s.preparedBits (cfg.host c) h)
      (hin : t.base.row.view.mod_in = s.base.row.view.mod_in)
      (hdata : t.base.row.data = s.base.row.data)
      (hc : (s.base.access c).held = none) (ha : a.held = none)
      (hacc : t.base.access = Function.update s.base.access c
        (if ok then .holding kind (some p) none else a))
      (hpayload : t.base.payload = s.base.payload)
      (hunpublished : t.unpublished = s.unpublished) :
      CachedStep cfg s (.row (.remoteLock c kind)) t
  | update {e : CachedLabel α C} {t : CachedSystem α C} {c : C} {via : Option Ptr}
      {written : Option α} {value : α} (hwork : WorkedOn s t (hostOf cfg c via))
      (hself : t.seen (hostOf cfg c via) = value) (hbit : ∀ h, t.bit h = s.bit h)
      (hin : t.base.row.view.mod_in = true)
      (hc : s.base.access c = .holding .write via written) (hvia : s.base.Current via)
      (hacc : t.base.access = Function.update s.base.access c (.holding .write via (some value)))
      (hpayload : t.base.payload = s.base.payload)
      (hunpublished : t.unpublished = s.unpublished) : CachedStep cfg s e t
  | updateLocal {e : CachedLabel α C} {t : CachedSystem α C} {c : C} {written : Option α}
      {value : α} (hm : s.base.row.view.migrated = false)
      (hm' : t.base.row.view.migrated = false) (hdata : t.base.row.data = value)
      (hout : t.base.row.view.mod_out = true)
      (hc : s.base.access c = .holding .write none written)
      (hacc : t.base.access = Function.update s.base.access c (.holding .write none (some value)))
      (hpayload : t.base.payload = s.base.payload)
      (hunpublished : t.unpublished = s.unpublished) : CachedStep cfg s e t
  | release {t : CachedSystem α C} {c : C} {kind : LockKind} {via : Option Ptr}
      (hsame : Unchanged s t) (hc : s.base.access c = .holding kind via none)
      (hacc : t.base.access = Function.update s.base.access c (.afterLock via))
      (hpayload : t.base.payload = s.base.payload)
      (hunpublished : t.unpublished = s.unpublished) : CachedStep cfg s (.row (.release c)) t
  | releaseVersion {t : CachedSystem α C} {c : C} {via : Option Ptr} {written : Option α}
      {new_value : Word}
      (hm : s.base.row.view.migrated = true) (hplace : s.base.row.view.StaysPut t.base.row.view)
      (hin : t.base.row.view.mod_in = s.base.row.view.mod_in)
      (hdata : t.base.row.data = s.base.row.data)
      (hself : t.seen (hostOf cfg c via) = s.seen (hostOf cfg c via))
      (hmemory : t.memory = s.seen (hostOf cfg c via))
      (hbit : ∀ h, t.bit h = decide (h = hostOf cfg c via))
      (hc : s.base.access c = .holding .write via written) (hvia : s.base.Current via)
      (hacc : t.base.access = Function.update s.base.access c (.afterLock via))
      (hpayload : t.base.payload = written.getD s.base.payload)
      (hunpublished : t.unpublished = none) :
      CachedStep cfg s (.row (.releaseVersion c new_value)) t
  | releaseVersionLocal {t : CachedSystem α C} {c : C} {written : Option α} {new_value : Word}
      (hm : s.base.row.view.migrated = false) (hsame : Unchanged s t)
      (hc : s.base.access c = .holding .write none written)
      (hacc : t.base.access = Function.update s.base.access c .idle)
      (hpayload : t.base.payload = written.getD s.base.payload)
      (hunpublished : t.unpublished = s.unpublished) :
      CachedStep cfg s (.row (.releaseVersion c new_value)) t
  | releaseScan {t : CachedSystem α C} {c : C} {via : Option Ptr} {value : α}
      (hsame : Unchanged s t) (hc : s.base.access c = .holding .write via (some value))
      (hvia : s.base.Current via)
      (hacc : t.base.access = Function.update s.base.access c (.afterLock via))
      (hpayload : t.base.payload = value)
      (hunpublished : t.unpublished = if s.base.row.view.migrated
        then some (hostOf cfg c via) else s.unpublished) :
      CachedStep cfg s (.releaseScan c) t
  | moveIn {t : CachedSystem α C} {alloc : Allocation α} {inc_ref_cnt : Bool} {x : α}
      (hm : s.base.row.view.migrated = false) (hm' : t.base.row.view.migrated = true)
      (hrow : t.base.row.view.row ∉ s.base.allocated)
      (hx : x = s.base.row.data ∨ s.base.row.view.mod_out = false ∧
        (s.base.row.view.allocated = true → x = s.seen cfg.owner))
      (hself : t.seen cfg.owner = x) (hmemory : t.memory = x)
      (hbit : ∀ h, t.bit h = decide (h = cfg.owner))
      (hdata : t.base.row.data = s.base.row.data)
      (hallocated : t.base.row.view.allocated = true) (hacc : t.base.access = s.base.access)
      (hpayload : t.base.payload = s.base.payload) (hunpublished : t.unpublished = none) :
      CachedStep cfg s (.row (.moveIn alloc inc_ref_cnt)) t
  | moveOut {t : CachedSystem α C}
      (hm : s.base.row.view.migrated = true) (hm' : t.base.row.view.migrated = false)
      (hdata : t.base.row.data = s.prepared cfg.owner ∨
        s.base.row.view.mod_in = false ∧ t.base.row.data = s.base.row.data)
      (hself : t.seen cfg.owner = s.prepared cfg.owner)
      (hallocated : t.base.row.view.allocated = s.base.row.view.allocated)
      (hacc : t.base.access = s.base.access) (hpayload : t.base.payload = s.base.payload)
      (hunpublished : t.unpublished = s.unpublished) : CachedStep cfg s (.row .moveOut) t

end CachedSystem

end Tigon.TwoPLPasha
