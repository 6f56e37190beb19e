import Tigon.TwoPLPasha.CachedSystem.Refinement

namespace Tigon.TwoPLPasha

open Function RowSystem Tigon.Library

def Access.updatedThrough {α : Type} : Access α → Option Ptr
  | .holding .write via (some _) => via
  | _ => none

namespace CachedSystem

variable {α C : Type}

-- The owner's lock calls stay away from a row between an update on another host and its
-- release.
def OwnerWaits (s : CachedSystem α C) : CachedLabel α C → Prop
  | .row (.localLock ..) => ∀ c, ∀ p ∈ (s.base.access c).updatedThrough, ¬ s.base.row.IsCurrent p
  | _ => True

instance [Fintype C] (s : CachedSystem α C) (e : CachedLabel α C) : Decidable (s.OwnerWaits e) := by
  rcases e with ⟨⟨⟩⟩ | _ | _ | _ <;> unfold OwnerWaits <;> infer_instance

-- The host whose copy of the block a label needs, if it needs one that is up to date.
def reader (cfg : Config C) : CachedLabel α C → Option Host
  | .row (.localLock ..) | .row .moveOut => some cfg.owner
  | .row (.remoteLock c _) => some (cfg.host c)
  | _ => none

-- What only one host has, no other host asks for.
def StaysOnHost (cfg : Config C) (s : CachedSystem α C) (e : CachedLabel α C) : Prop :=
  ∀ h ∈ reader cfg e, ∀ g ∈ s.unpublished, g = h

instance (cfg : Config C) (s : CachedSystem α C) (e : CachedLabel α C) :
    Decidable (s.StaysOnHost cfg e) :=
  inferInstanceAs (Decidable (∀ h ∈ reader cfg e, ∀ g ∈ s.unpublished, g = h))

-- A request with an update that is not released yet, on the host that works for it.
def Live (cfg : Config C) (s : CachedSystem α C) (c : C) (h : Host) (v : α) : Prop :=
  ∃ via, s.base.access c = .holding .write via (some v) ∧ s.base.Current via ∧
    hostOf cfg c via = h

-- What the copy of host `h` may be: the update of a request there, and the last payload
-- otherwise. An update of the owner may be in every copy, because a move-in publishes it.
structure Expected (cfg : Config C) (s : CachedSystem α C) (h : Host) (x : α) : Prop where
  live : ∀ c v, s.Live cfg c h v → x = v
  settled : (∀ c v, ¬ s.Live cfg c h v) → (∀ c v, ¬ s.Live cfg c cfg.owner v) →
    (∀ g ∈ s.unpublished, g = h) → x = s.base.payload

structure Coherent (cfg : Config C) (s : CachedSystem α C) : Prop where
  lock : RowSystem.LockInv s.base
  known : RowSystem.Known cfg s.base
  cached : s.base.row.view.migrated = true ∨ s.base.row.view.mod_out = false →
    s.base.row.view.allocated = true
  memory : s.base.row.view.migrated = true → (∀ c v, ¬ s.Live cfg c cfg.owner v) →
    s.unpublished = none → s.memory = s.base.payload
  seen : s.base.row.view.migrated = true → ∀ h, s.bit h = true → s.Expected cfg h (s.seen h)
  retired : s.base.row.view.migrated = false → s.base.row.view.mod_out = false →
    s.Expected cfg cfg.owner (s.seen cfg.owner)
  owner : s.base.row.view.mod_in = false → s.Expected cfg cfg.owner s.base.row.data
  flagged : ∀ c h v, s.Live cfg c h v → h ≠ cfg.owner → s.base.row.view.mod_in = true
  flagged_unpublished : ∀ h ∈ s.unpublished, h ≠ cfg.owner → s.base.row.view.mod_in = true
  bits : s.base.row.view.migrated = true → ∀ c via w,
    s.base.access c = .holding .write via w → s.base.Current via → s.bit (hostOf cfg c via) = true
  bits_unpublished : s.base.row.view.migrated = true → ∀ h ∈ s.unpublished, s.bit h = true
  holders : ∀ h ∈ s.unpublished, ∀ c kind via w, s.base.access c = .holding kind via w →
    s.base.Current via → hostOf cfg c via = h

variable {cfg : Config C} {s t : CachedSystem α C} {c : C}

-- A row that is local is not flagged, so only its owner can have what is unpublished.
theorem mod_in_of_unmigrated (hm : s.base.row.view.migrated = false) :
    s.base.row.view.mod_in = false := by
  have hm : s.base.row.lmeta.is_migrated = false := hm
  simp [RowState.view, hm]

theorem none_of_unmigrated {via : Option Ptr} (hm : s.base.row.view.migrated = false)
    (hvia : s.base.Current via) : via = none := by
  cases via with
  | none => rfl
  | some p =>
    have hm' : s.base.row.view.migrated = true := (hvia p rfl).1
    rw [hm] at hm'
    cases hm'

theorem Coherent.unpublished_owner (hinv : s.Coherent cfg)
    (hin : s.base.row.view.mod_in = false) : ∀ g ∈ s.unpublished, g = cfg.owner := by
  intro g hg
  by_contra hne
  exact absurd (hinv.flagged_unpublished g hg hne) (by rw [hin]; decide)

theorem Coherent.prepared (hinv : s.Coherent cfg) (hm : s.base.row.view.migrated = true)
    (h : Host) : s.Expected cfg h (s.prepared h) := by
  rw [CachedSystem.prepared]
  split
  · rename_i hbit
    exact hinv.seen hm h hbit
  · rename_i hbit
    refine ⟨fun c v hlive => ?_, fun _ howner hg => ?_⟩
    · -- a writer's host has its bit
      obtain ⟨via, hc, hvia, rfl⟩ := hlive
      exact absurd (hinv.bits hm c via _ hc hvia) hbit
    · refine hinv.memory hm howner ?_
      cases hun : s.unpublished with
      | none => rfl
      | some g =>
        have hgh : g = h := hg g hun
        subst hgh
        exact absurd (hinv.bits_unpublished hm g hun) hbit

theorem current_congr (hplace : s.base.row.view.StaysPut t.base.row.view) (via : Option Ptr) :
    t.base.Current via ↔ s.base.Current via := by
  have hiff : ∀ p, t.base.row.IsCurrent p ↔ s.base.row.IsCurrent p := by
    intro p
    have hm : t.base.row.lmeta.is_migrated = s.base.row.lmeta.is_migrated := hplace.migrated
    have hrow : t.base.row.lmeta.migrated_row = s.base.row.lmeta.migrated_row := hplace.row
    rw [RowState.IsCurrent, RowState.IsCurrent, hm, hrow]
  exact forall₂_congr fun p _ => hiff p

theorem live_congr (hcur : ∀ via, t.base.Current via ↔ s.base.Current via)
    (hwrites : ∀ c via v, t.base.access c = .holding .write via (some v) ↔
      s.base.access c = .holding .write via (some v)) (c : C) (h : Host) (v : α) :
    t.Live cfg c h v ↔ s.Live cfg c h v := by
  refine exists_congr fun via => ?_
  rw [hwrites, hcur]

variable {h : Host} {x : α}

theorem Expected.congr (hexp : s.Expected cfg h x)
    (hlive : ∀ c h v, t.Live cfg c h v ↔ s.Live cfg c h v)
    (hpayload : t.base.payload = s.base.payload) (hunpublished : t.unpublished = s.unpublished) :
    t.Expected cfg h x := by
  refine ⟨fun c v hl => hexp.live c v ((hlive c h v).mp hl), fun hnone howner hg => ?_⟩
  rw [hpayload]
  refine hexp.settled (fun c v hl => hnone c v ((hlive c h v).mpr hl))
    (fun c v hl => howner c v ((hlive c cfg.owner v).mpr hl)) ?_
  rw [← hunpublished]
  exact hg

-- A move does the same for the owner, as its updates are all that survive it.
theorem Expected.carry (hexp : s.Expected cfg cfg.owner x)
    (hlive : ∀ c v, t.Live cfg c cfg.owner v ↔ s.Live cfg c cfg.owner v)
    (hpayload : t.base.payload = s.base.payload) (hun : ∀ g ∈ s.unpublished, g = cfg.owner) :
    t.Expected cfg cfg.owner x := by
  refine ⟨fun c v hl => hexp.live c v ((hlive c v).mp hl), fun hnone _ _ => ?_⟩
  rw [hpayload]
  have hnone' : ∀ c v, ¬ s.Live cfg c cfg.owner v := fun c v hl => hnone c v ((hlive c v).mpr hl)
  exact hexp.settled hnone' hnone' hun

theorem coherent_of_unmigrated (hm : s.base.row.view.migrated = false)
    (hlock : RowSystem.LockInv s.base) (hknown : RowSystem.Known cfg s.base)
    (hcached : s.base.row.view.mod_out = false → s.base.row.view.allocated = true)
    (hretired : s.base.row.view.mod_out = false → s.Expected cfg cfg.owner (s.seen cfg.owner))
    (howner : s.Expected cfg cfg.owner s.base.row.data)
    (hun : ∀ g ∈ s.unpublished, g = cfg.owner) : s.Coherent cfg := by
  have hlocal : ¬ s.base.row.view.migrated = true := by
    rw [hm]
    decide
  refine {
    lock := hlock
    known := hknown
    cached := fun h => hcached (h.resolve_left hlocal)
    memory := fun h => absurd h hlocal
    seen := fun h => absurd h hlocal
    retired := fun _ => hretired
    owner := fun _ => howner
    flagged := ?_
    flagged_unpublished := fun g hg hne => absurd (hun g hg) hne
    bits := fun h => absurd h hlocal
    bits_unpublished := fun h => absurd h hlocal
    holders := ?_ }
  · rintro c h v ⟨via, -, hvia, rfl⟩ hne
    rw [none_of_unmigrated hm hvia] at hne
    exact absurd rfl hne
  · intro g hg c kind via w _ hvia
    rw [none_of_unmigrated hm hvia]
    exact (hun g hg).symm

theorem expected_of_free (hfree : ∀ d kind via w, s.base.access d ≠ .holding kind via w)
    (hx : (∀ g ∈ s.unpublished, g = h) → x = s.base.payload) : s.Expected cfg h x := by
  refine ⟨fun d v hl => ?_, fun _ _ hg => hx hg⟩
  obtain ⟨via, hd, -⟩ := hl
  exact absurd hd (hfree d _ via _)

theorem coherent_of_free (hm : s.base.row.view.migrated = true)
    (hfree : ∀ d kind via w, s.base.access d ≠ .holding kind via w)
    (hlock : RowSystem.LockInv s.base) (hknown : RowSystem.Known cfg s.base)
    (hallocated : s.base.row.view.allocated = true)
    (hmemory : s.unpublished = none → s.memory = s.base.payload)
    (hseen : ∀ h, s.bit h = true → (∀ g ∈ s.unpublished, g = h) → s.seen h = s.base.payload)
    (howner : s.base.row.view.mod_in = false → s.base.row.data = s.base.payload)
    (hflagged : ∀ g ∈ s.unpublished, g ≠ cfg.owner → s.base.row.view.mod_in = true)
    (hbits : ∀ g ∈ s.unpublished, s.bit g = true) : s.Coherent cfg := by
  refine {
    lock := hlock
    known := hknown
    cached := fun _ => hallocated
    memory := fun _ _ => hmemory
    seen := fun _ h hb => expected_of_free hfree (hseen h hb)
    retired := ?_
    owner := fun hin => expected_of_free hfree fun _ => howner hin
    flagged := ?_
    flagged_unpublished := hflagged
    bits := fun _ d via w hd => absurd hd (hfree d _ via w)
    bits_unpublished := fun _ => hbits
    holders := fun _ _ d kind via w hd => absurd hd (hfree d kind via w) }
  · rw [hm]
    nofun
  · rintro d h v ⟨via, hd, -⟩
    exact absurd hd (hfree d _ via _)

theorem Coherent.cached_of_place (hinv : s.Coherent cfg)
    (hplace : s.base.row.view.StaysPut t.base.row.view) :
    t.base.row.view.migrated = true ∨ t.base.row.view.mod_out = false →
      t.base.row.view.allocated = true := by
  rw [hplace.migrated, hplace.mod_out, hplace.allocated]
  exact hinv.cached

theorem Coherent.unchanged (hinv : s.Coherent cfg) (hsame : Unchanged s t)
    (hlive : ∀ c h v, t.Live cfg c h v ↔ s.Live cfg c h v)
    (hpayload : t.base.payload = s.base.payload) (hunpublished : t.unpublished = s.unpublished)
    (hlock : RowSystem.LockInv t.base) (hknown : RowSystem.Known cfg t.base)
    (hheld : ∀ c kind via w, t.base.access c = .holding kind via w →
      s.base.access c = .holding kind via w ∨
        s.base.row.view.migrated = false ∧ ∀ g ∈ s.unpublished, hostOf cfg c via = g) :
    t.Coherent cfg := by
  have hplace := hsame.place
  have hcur := current_congr hplace
  refine ⟨hlock, hknown, hinv.cached_of_place hplace, ?_, ?_, ?_, ?_, ?_, ?_, ?_, ?_, ?_⟩
  · rw [hplace.migrated, hunpublished, hsame.memory, hpayload]
    intro hm hnone hun
    exact hinv.memory hm (fun c v hl => hnone c v ((hlive c cfg.owner v).mpr hl)) hun
  · rw [hplace.migrated]
    intro hm h hbit
    rw [hsame.bit hm h] at hbit
    rw [hsame.seen]
    exact (hinv.seen hm h hbit).congr hlive hpayload hunpublished
  · rw [hplace.migrated, hplace.mod_out, hsame.seen]
    intro hm hout
    exact (hinv.retired hm hout).congr hlive hpayload hunpublished
  · rw [hsame.mod_in, hsame.data]
    intro hin
    exact (hinv.owner hin).congr hlive hpayload hunpublished
  · rw [hsame.mod_in]
    intro c h v hl
    exact hinv.flagged c h v ((hlive c h v).mp hl)
  · rw [hsame.mod_in, hunpublished]
    exact hinv.flagged_unpublished
  · rw [hplace.migrated]
    intro hm c via w hc hvia
    rw [hsame.bit hm]
    rcases hheld c _ via w hc with hc | ⟨hm', -⟩
    · exact hinv.bits hm c via w hc ((hcur via).mp hvia)
    · exact absurd hm (by rw [hm']; decide)
  · rw [hplace.migrated, hunpublished]
    intro hm h hh
    rw [hsame.bit hm]
    exact hinv.bits_unpublished hm h hh
  · rw [hunpublished]
    intro h hh c kind via w hc hvia
    rcases hheld c kind via w hc with hc | ⟨-, hhost⟩
    · exact hinv.holders h hh c kind via w hc ((hcur via).mp hvia)
    · exact hhost h hh

theorem Coherent.lockCall (hinv : s.Coherent cfg) (hwork : WorkedOn s t h)
    (hself : t.seen h = s.prepared h) (hbit : ∀ h', t.bit h' = s.preparedBits h h')
    (hdata : t.base.row.view.mod_in = s.base.row.view.mod_in ∧ t.base.row.data = s.base.row.data ∨
      (t.base.row.view.mod_in = false ∧ t.base.row.data = s.prepared cfg.owner) ∧
      (∀ c h v, s.Live cfg c h v → h = cfg.owner) ∧ ∀ g ∈ s.unpublished, g = cfg.owner)
    (hlive : ∀ c h v, t.Live cfg c h v ↔ s.Live cfg c h v)
    (hpayload : t.base.payload = s.base.payload) (hunpublished : t.unpublished = s.unpublished)
    (hlock : RowSystem.LockInv t.base) (hknown : RowSystem.Known cfg t.base)
    (hun : ∀ g ∈ s.unpublished, g = h)
    (hheld : ∀ c kind via w, t.base.access c = .holding kind via w →
      s.base.access c = .holding kind via w ∨ hostOf cfg c via = h) :
    t.Coherent cfg := by
  have hm := hwork.migrated
  have hplace := hwork.place
  have hcur := current_congr hplace
  have hprepared := hinv.prepared hm
  have hbit' : ∀ h', s.bit h' = true → t.bit h' = true := by
    intro h' hh
    rw [hbit, preparedBits, hh, Bool.or_true]
  refine ⟨hlock, hknown, hinv.cached_of_place hplace, ?_, ?_, ?_, ?_, ?_, ?_, ?_, ?_, ?_⟩
  · rw [hunpublished, hwork.memory, hpayload]
    intro _ hnone hun
    exact hinv.memory hm (fun c v hl => hnone c v ((hlive c cfg.owner v).mpr hl)) hun
  · intro _ h' hb
    refine Expected.congr (s := s) ?_ hlive hpayload hunpublished
    by_cases hh : h' = h
    · subst hh
      rw [hself]
      exact hprepared h'
    · rw [hbit, preparedBits, decide_eq_false hh, Bool.false_or] at hb
      rw [hwork.other h' hh]
      exact hinv.seen hm h' hb
  · rw [hplace.migrated, hm]
    nofun
  · intro hin
    refine Expected.congr (s := s) ?_ hlive hpayload hunpublished
    rcases hdata with ⟨hin', hdata⟩ | ⟨⟨-, hdata⟩, -⟩
    · rw [hdata]
      exact hinv.owner (hin'.symm.trans hin)
    · rw [hdata]
      exact hprepared cfg.owner
  · intro c h' v hl hne
    have hl := (hlive c h' v).mp hl
    rcases hdata with ⟨hin, -⟩ | ⟨-, hquiet, -⟩
    · rw [hin]
      exact hinv.flagged c h' v hl hne
    · exact absurd (hquiet c h' v hl) hne
  · rw [hunpublished]
    intro g hg hne
    rcases hdata with ⟨hin, -⟩ | ⟨-, -, hquiet⟩
    · rw [hin]
      exact hinv.flagged_unpublished g hg hne
    · exact absurd (hquiet g hg) hne
  · intro _ c via w hc hvia
    rcases hheld c _ via w hc with hc | hhost
    · exact hbit' _ (hinv.bits hm c via w hc ((hcur via).mp hvia))
    · rw [hbit, preparedBits, hhost, decide_eq_true rfl, Bool.true_or]
  · rw [hunpublished]
    intro _ g hg
    exact hbit' g (hinv.bits_unpublished hm g hg)
  · rw [hunpublished]
    intro g hg c kind via w hc hvia
    rcases hheld c kind via w hc with hc | hhost
    · exact hinv.holders g hg c kind via w hc ((hcur via).mp hvia)
    · rw [hhost, hun g hg]

section Writer

variable [DecidableEq C] {via : Option Ptr} {written : Option α} (hinv : s.Coherent cfg)
  (hc : s.base.access c = .holding .write via written)

include hinv hc

variable {d : C}

omit [DecidableEq C] in
theorem Coherent.alone {kind : LockKind} {via' : Option Ptr} {w : Option α}
    (hd : s.base.access d = .holding kind via' w) : d = c := by
  have hholds : s.base.holder d = some kind := by rw [holder, hd]; rfl
  exact hinv.lock.accounts.exclusive (by rw [holder, hc]; rfl) hholds

theorem Coherent.free_after
    (hacc : t.base.access = Function.update s.base.access c (.afterLock via))
    (d : C) (kind : LockKind) (via' : Option Ptr) (w : Option α) :
    t.base.access d ≠ .holding kind via' w := by
  intro hd
  rw [hacc] at hd
  by_cases hdc : d = c
  · subst hdc
    rw [update_self] at hd
    cases via <;> cases hd
  · rw [update_of_ne hdc] at hd
    exact hdc (hinv.alone hc hd)

section

omit [DecidableEq C]

theorem Coherent.live_writer {h : Host} {v : α} (hl : s.Live cfg d h v) :
    d = c ∧ hostOf cfg c via = h ∧ written = some v := by
  obtain ⟨via', hd, -, hhost⟩ := hl
  have hdc := hinv.alone hc hd
  subst hdc
  rw [hc] at hd
  cases hd
  exact ⟨rfl, hhost, rfl⟩

theorem Coherent.released {x : α} (hvia : s.base.Current via)
    (hx : s.Expected cfg (hostOf cfg c via) x) : x = written.getD s.base.payload := by
  cases written with
  | some v => exact hx.live c v ⟨via, hc, hvia, rfl⟩
  | none =>
    have hnone : ∀ h d v, ¬ s.Live cfg d h v := by
      intro h d v hl
      cases (hinv.live_writer hc hl).2.2
    refine hx.settled (hnone _) (hnone _) fun g hg => ?_
    exact (hinv.holders g hg c .write via none hc hvia).symm

-- The owner's row too, unless it is flagged.
theorem Coherent.owner_released (hvia : s.base.Current via)
    (hin : s.base.row.view.mod_in = false) : s.base.row.data = written.getD s.base.payload := by
  have howner := hinv.owner hin
  cases written with
  | some v =>
    have hlive : s.Live cfg c (hostOf cfg c via) v := ⟨via, hc, hvia, rfl⟩
    have hhost : hostOf cfg c via = cfg.owner := by
      by_contra hne
      exact absurd (hinv.flagged c _ v hlive hne) (by rw [hin]; decide)
    rw [hhost] at hlive
    exact howner.live c v hlive
  | none =>
    have hnone : ∀ d v, ¬ s.Live cfg d cfg.owner v := by
      intro d v hl
      cases (hinv.live_writer hc hl).2.2
    exact howner.settled hnone hnone (hinv.unpublished_owner hin)

end

variable {value : α}

theorem Coherent.live_update
    (hacc : t.base.access = Function.update s.base.access c (.holding .write via (some value)))
    {h : Host} {v : α} (hl : t.Live cfg d h v) : d = c ∧ hostOf cfg c via = h ∧ v = value := by
  obtain ⟨via', hd, -, hhost⟩ := hl
  rw [hacc] at hd
  by_cases hdc : d = c
  · subst hdc
    rw [update_self] at hd
    cases hd
    exact ⟨rfl, hhost, rfl⟩
  · rw [update_of_ne hdc] at hd
    exact absurd (hinv.alone hc hd) hdc

theorem Coherent.held_update
    (hacc : t.base.access = Function.update s.base.access c (.holding .write via (some value)))
    {kind : LockKind} {via' : Option Ptr} {w : Option α}
    (hd : t.base.access d = .holding kind via' w) : d = c ∧ kind = .write ∧ via' = via := by
  rw [hacc] at hd
  by_cases hdc : d = c
  · subst hdc
    rw [update_self] at hd
    cases hd
    exact ⟨rfl, rfl, rfl⟩
  · rw [update_of_ne hdc] at hd
    exact absurd (hinv.alone hc hd) hdc

theorem Coherent.update (hwork : WorkedOn s t (hostOf cfg c via))
    (hself : t.seen (hostOf cfg c via) = value) (hbit : ∀ h, t.bit h = s.bit h)
    (hin : t.base.row.view.mod_in = true) (hvia : s.base.Current via)
    (hacc : t.base.access = Function.update s.base.access c (.holding .write via (some value)))
    (hpayload : t.base.payload = s.base.payload) (hunpublished : t.unpublished = s.unpublished)
    (hlock : RowSystem.LockInv t.base) (hknown : RowSystem.Known cfg t.base) : t.Coherent cfg := by
  have hm := hwork.migrated
  have hplace := hwork.place
  have hcur := current_congr hplace
  have hlive : t.Live cfg c (hostOf cfg c via) value :=
    ⟨via, by rw [hacc, update_self], (hcur via).mpr hvia, rfl⟩
  refine ⟨hlock, hknown, hinv.cached_of_place hplace, ?_, ?_, ?_, ?_, ?_, ?_, ?_, ?_, ?_⟩
  · rw [hunpublished, hwork.memory, hpayload]
    intro _ hnone
    refine hinv.memory hm fun d v hl => ?_
    exact hnone c value ((hinv.live_writer hc hl).2.1 ▸ hlive)
  · intro _ h hb
    refine ⟨fun d v hl => ?_, fun hnone howner hg => ?_⟩
    · obtain ⟨-, rfl, rfl⟩ := hinv.live_update hc hacc hl
      exact hself
    · -- another host, whose copy nobody has touched
      have hne : h ≠ hostOf cfg c via := by
        rintro rfl
        exact hnone c value hlive
      rw [hbit] at hb
      rw [hwork.other h hne, hpayload]
      refine (hinv.seen hm h hb).settled (fun d v hl => ?_) (fun d v hl => ?_)
        (by rw [← hunpublished]; exact hg)
      · exact hne (hinv.live_writer hc hl).2.1.symm
      · exact howner c value ((hinv.live_writer hc hl).2.1 ▸ hlive)
  · rw [hplace.migrated, hm]
    nofun
  · rw [hin]
    nofun
  · exact fun _ _ _ _ _ => hin
  · exact fun _ _ _ => hin
  · intro _ d via' w hd hvia'
    obtain ⟨rfl, -, rfl⟩ := hinv.held_update hc hacc hd
    rw [hbit]
    exact hinv.bits hm d via' written hc hvia
  · rw [hunpublished]
    intro _ g hg
    rw [hbit]
    exact hinv.bits_unpublished hm g hg
  · rw [hunpublished]
    intro g hg d kind via' w hd hvia'
    obtain ⟨rfl, -, rfl⟩ := hinv.held_update hc hacc hd
    exact hinv.holders g hg d .write via' written hc hvia

theorem Coherent.updateLocal (hm : s.base.row.view.migrated = false)
    (hm' : t.base.row.view.migrated = false) (hdata : t.base.row.data = value)
    (hout : t.base.row.view.mod_out = true) (hnone : via = none)
    (hacc : t.base.access = Function.update s.base.access c (.holding .write via (some value)))
    (hunpublished : t.unpublished = s.unpublished) (hlock : RowSystem.LockInv t.base)
    (hknown : RowSystem.Known cfg t.base) : t.Coherent cfg := by
  subst hnone
  have hlive : t.Live cfg c cfg.owner value :=
    ⟨none, by rw [hacc, update_self], nofun, rfl⟩
  have howner := hinv.unpublished_owner (mod_in_of_unmigrated hm)
  have hexp : t.Expected cfg cfg.owner value :=
    ⟨fun d v hl => (hinv.live_update hc hacc hl).2.2.symm,
      fun hnone => absurd hlive (hnone c value)⟩
  refine coherent_of_unmigrated hm' hlock hknown ?_ ?_ (hdata ▸ hexp) (hunpublished ▸ howner)
  · rw [hout]
    nofun
  · rw [hout]
    nofun

theorem Coherent.releaseVersion (hm : s.base.row.view.migrated = true)
    (hplace : s.base.row.view.StaysPut t.base.row.view)
    (hin : t.base.row.view.mod_in = s.base.row.view.mod_in)
    (hdata : t.base.row.data = s.base.row.data)
    (hself : t.seen (hostOf cfg c via) = s.seen (hostOf cfg c via))
    (hmemory : t.memory = s.seen (hostOf cfg c via))
    (hbit : ∀ h, t.bit h = decide (h = hostOf cfg c via)) (hvia : s.base.Current via)
    (hacc : t.base.access = Function.update s.base.access c (.afterLock via))
    (hpayload : t.base.payload = written.getD s.base.payload)
    (hunpublished : t.unpublished = none)
    (hlock : RowSystem.LockInv t.base) (hknown : RowSystem.Known cfg t.base) :
    t.Coherent cfg := by
  have hfree := hinv.free_after hc hacc
  have hseen : s.seen (hostOf cfg c via) = t.base.payload := by
    rw [hpayload]
    exact hinv.released hc hvia (hinv.seen hm _ (hinv.bits hm c via written hc hvia))
  refine coherent_of_free (hplace.migrated.trans hm) hfree hlock hknown ?_ ?_ ?_ ?_ ?_ ?_
  · exact hinv.cached_of_place hplace (.inl (hplace.migrated.trans hm))
  · rw [hmemory]
    exact fun _ => hseen
  · intro h hb _
    rw [hbit, decide_eq_true_eq] at hb
    subst hb
    rw [hself]
    exact hseen
  · rw [hin, hdata, hpayload]
    exact hinv.owner_released hc hvia
  · rw [hunpublished]
    nofun
  · rw [hunpublished]
    nofun

theorem Coherent.releaseVersionLocal (hm : s.base.row.view.migrated = false)
    (hsame : Unchanged s t) (hnone : via = none)
    (hacc : t.base.access = Function.update s.base.access c (.afterLock via))
    (hpayload : t.base.payload = written.getD s.base.payload)
    (hunpublished : t.unpublished = s.unpublished)
    (hlock : RowSystem.LockInv t.base) (hknown : RowSystem.Known cfg t.base) :
    t.Coherent cfg := by
  subst hnone
  have hvia : s.base.Current none := nofun
  have hfree := hinv.free_after hc hacc
  have hm' : t.base.row.view.migrated = false := hsame.place.migrated.trans hm
  have hin := mod_in_of_unmigrated hm
  refine coherent_of_unmigrated hm' hlock hknown ?_ ?_ ?_ ?_
  · exact fun hout => hinv.cached_of_place hsame.place (.inr hout)
  · rw [hsame.place.mod_out, hsame.seen]
    intro hout
    refine expected_of_free hfree fun _ => ?_
    rw [hpayload]
    exact hinv.released hc hvia (hinv.retired hm hout)
  · rw [hsame.data]
    refine expected_of_free hfree fun _ => ?_
    rw [hpayload]
    exact hinv.owner_released hc hvia hin
  · rw [hunpublished]
    exact hinv.unpublished_owner hin

theorem Coherent.releaseScan (hwritten : written = some value) (hsame : Unchanged s t)
    (hvia : s.base.Current via)
    (hacc : t.base.access = Function.update s.base.access c (.afterLock via))
    (hpayload : t.base.payload = value)
    (hunpublished : t.unpublished =
      if s.base.row.view.migrated then some (hostOf cfg c via) else s.unpublished)
    (hlock : RowSystem.LockInv t.base) (hknown : RowSystem.Known cfg t.base) : t.Coherent cfg := by
  have hvalue : written.getD s.base.payload = t.base.payload := by
    rw [hwritten, hpayload]
    rfl
  cases hm : s.base.row.view.migrated with
  | false =>
    have hnone := none_of_unmigrated hm hvia
    rw [hm] at hunpublished
    exact hinv.releaseVersionLocal hc hm hsame hnone hacc hvalue.symm hunpublished hlock hknown
  | true =>
    rw [hm, if_pos rfl] at hunpublished
    have hfree := hinv.free_after hc hacc
    have hlive : s.Live cfg c (hostOf cfg c via) value := ⟨via, by rw [hc, hwritten], hvia, rfl⟩
    have hm' : t.base.row.view.migrated = true := hsame.place.migrated.trans hm
    refine coherent_of_free hm' hfree hlock hknown ?_ ?_ ?_ ?_ ?_ ?_
    · exact hinv.cached_of_place hsame.place (.inl hm')
    · rw [hunpublished]
      nofun
    · intro h hb hg
      have hh : hostOf cfg c via = h := hg _ hunpublished
      rw [hsame.bit hm] at hb
      rw [hsame.seen, hpayload]
      exact (hinv.seen hm h hb).live c value (hh ▸ hlive)
    · rw [hsame.mod_in, hsame.data, ← hvalue]
      exact hinv.owner_released hc hvia
    · rw [hunpublished, hsame.mod_in]
      intro g hg hne
      cases hg
      exact hinv.flagged c _ value hlive hne
    · rw [hunpublished]
      intro g hg
      cases hg
      rw [hsame.bit hm]
      exact hinv.bits hm c via written hc hvia

end Writer

section Move

variable (hinv : s.Coherent cfg)

include hinv

theorem Coherent.moveIn {x : α} (hm : s.base.row.view.migrated = false)
    (hm' : t.base.row.view.migrated = true) (hrow : t.base.row.view.row ∉ s.base.allocated)
    (hx : x = s.base.row.data ∨ s.base.row.view.mod_out = false ∧
      (s.base.row.view.allocated = true → x = s.seen cfg.owner))
    (hself : t.seen cfg.owner = x) (hmemory : t.memory = x)
    (hbit : ∀ h, t.bit h = decide (h = cfg.owner))
    (hdata : t.base.row.data = s.base.row.data)
    (hallocated : t.base.row.view.allocated = true) (hacc : t.base.access = s.base.access)
    (hpayload : t.base.payload = s.base.payload) (hunpublished : t.unpublished = none)
    (hlock : RowSystem.LockInv t.base) (hknown : RowSystem.Known cfg t.base) :
    t.Coherent cfg := by
  have hin' := mod_in_of_unmigrated hm
  have hun := hinv.unpublished_owner hin'
  -- every pointer around is older than the new block, so locks are the owner's alone
  have hnone : ∀ c kind via w, t.base.access c = .holding kind via w → t.base.Current via →
      via = none := by
    intro c kind via w hc hvia
    cases via with
    | none => rfl
    | some p =>
      have hp : t.base.row.view.row = p := (hvia p rfl).2
      refine absurd (hinv.known.pointer c p ?_).1 (hp ▸ hrow)
      rw [← hacc, hc]
      rfl
  have howner : ∀ c h v, t.Live cfg c h v → h = cfg.owner := by
    rintro c h v ⟨via, hc, hvia, rfl⟩
    rw [hnone c _ via _ hc hvia]
    rfl
  have hlive : ∀ c v, t.Live cfg c cfg.owner v ↔ s.Live cfg c cfg.owner v := by
    intro c v
    constructor
    · rintro ⟨via, hc, hvia, hhost⟩
      have hvia := hnone c _ via _ hc hvia
      subst hvia
      exact ⟨none, by rw [← hacc]; exact hc, nofun, rfl⟩
    · rintro ⟨via, hc, hvia, hhost⟩
      have hvia := none_of_unmigrated hm hvia
      subst hvia
      exact ⟨none, by rw [hacc]; exact hc, nofun, rfl⟩
  have hexp : t.Expected cfg cfg.owner x := by
    refine Expected.carry (s := s) ?_ hlive hpayload hun
    rcases hx with rfl | ⟨hout, hx⟩
    · exact hinv.owner hin'
    · rw [hx (hinv.cached (.inr hout))]
      exact hinv.retired hm hout
  refine ⟨hlock, hknown, fun _ => hallocated, ?_, ?_, ?_, ?_, ?_, ?_, ?_, ?_, ?_⟩
  · rw [hmemory]
    intro _ hno _
    exact hexp.settled hno hno (by rw [hunpublished]; nofun)
  · intro _ h hb
    rw [hbit, decide_eq_true_eq] at hb
    subst hb
    rw [hself]
    exact hexp
  · rw [hm']
    nofun
  · intro _
    rw [hdata]
    exact (hinv.owner hin').carry hlive hpayload hun
  · intro c h v hl hne
    exact absurd (howner c h v hl) hne
  · rw [hunpublished]
    nofun
  · intro _ c via w hc hvia
    rw [hnone c _ via w hc hvia, hbit]
    exact decide_eq_true rfl
  · rw [hunpublished]
    nofun
  · rw [hunpublished]
    nofun

theorem Coherent.moveOut (hm : s.base.row.view.migrated = true)
    (hm' : t.base.row.view.migrated = false)
    (hdata : t.base.row.data = s.prepared cfg.owner ∨
      s.base.row.view.mod_in = false ∧ t.base.row.data = s.base.row.data)
    (hself : t.seen cfg.owner = s.prepared cfg.owner)
    (hallocated : t.base.row.view.allocated = s.base.row.view.allocated)
    (hacc : t.base.access = s.base.access) (hpayload : t.base.payload = s.base.payload)
    (hunpublished : t.unpublished = s.unpublished) (hun : ∀ g ∈ s.unpublished, g = cfg.owner)
    (hlock : RowSystem.LockInv t.base) (hknown : RowSystem.Known cfg t.base) :
    t.Coherent cfg := by
  have hlive : ∀ c v, t.Live cfg c cfg.owner v ↔ s.Live cfg c cfg.owner v := by
    intro c v
    constructor
    · rintro ⟨via, hc, hvia, hhost⟩
      have hvia := none_of_unmigrated hm' hvia
      subst hvia
      exact ⟨none, by rw [← hacc]; exact hc, nofun, rfl⟩
    · -- other hosts' requests go through pointers, so the owner's are local
      rintro ⟨via, hc, -, hhost⟩
      cases via with
      | none => exact ⟨none, by rw [hacc]; exact hc, nofun, rfl⟩
      | some p => exact absurd hhost (hinv.known.pointer c p (by rw [hc]; rfl)).2
  have hprepared := (hinv.prepared hm cfg.owner).carry hlive hpayload hun
  refine coherent_of_unmigrated hm' hlock hknown ?_ ?_ ?_ ?_
  · rw [hallocated]
    exact fun _ => hinv.cached (.inl hm)
  · rw [hself]
    exact fun _ => hprepared
  · rcases hdata with hdata | ⟨hin, hdata⟩
    · rw [hdata]
      exact hprepared
    · rw [hdata]
      exact (hinv.owner hin).carry hlive hpayload hun
  · rw [hunpublished]
    exact hun

end Move

section Steps

variable [DecidableEq C] {a : Access α} {kind : LockKind}

theorem held_of_update (hacc : t.base.access = Function.update s.base.access c a) {d : C}
    {via : Option Ptr} {w : Option α} (hd : t.base.access d = .holding kind via w) :
    s.base.access d = .holding kind via w ∨ d = c ∧ a = .holding kind via w := by
  rw [hacc] at hd
  by_cases hdc : d = c
  · subst hdc
    rw [update_self] at hd
    exact .inr ⟨rfl, hd⟩
  · rw [update_of_ne hdc] at hd
    exact .inl hd

omit [DecidableEq C] in
theorem written_of_lock {ok : Bool} (via' : Option Ptr) (ha : a.held = none) (via : Option Ptr)
    (v : α) : (if ok then .holding kind via' none else a) ≠ .holding .write via (some v) := by
  split
  · nofun
  · exact ne_written_of_held ha via v

omit [DecidableEq C] in
theorem via_of_lock {kind' : LockKind} {ok : Bool} {via via' : Option Ptr} {w : Option α}
    (ha : a.held = none) (h : (if ok then .holding kind via' none else a) = .holding kind' via w) :
    via' = via := by
  split at h
  · cases h
    rfl
  · rw [h] at ha
    cases ha

theorem coherent_of_step {e : CachedLabel α C} (hinv : s.Coherent cfg)
    (hwaits : s.OwnerWaits e) (hstays : s.StaysOnHost cfg e) (hout : Outcome cfg s e t) :
    t.Coherent cfg := by
  obtain ⟨hstep, hlock, hknown⟩ := hout
  cases hstep with
  | keep hsame hacc hpayload hunpublished =>
    refine hinv.unchanged hsame (live_congr (current_congr hsame.place) fun c via v => ?_) hpayload
      hunpublished hlock hknown fun c kind via w hc => .inl ?_
    · rw [hacc]
    · rw [← hacc]
      exact hc
  | @look _ _ c a hsame hc ha hacc hpayload hunpublished =>
    refine hinv.unchanged hsame (live_congr (current_congr hsame.place)
      (written_iff_of_look (ne_written_of_held hc)
        (ne_written_of_held ha) hacc)) hpayload
      hunpublished hlock hknown fun d kind via w hd => .inl ?_
    rcases held_of_update hacc hd with hd | ⟨-, rfl⟩
    · exact hd
    · cases ha
  | @localLock _ c kind _ ok hm hsame hc hacc hpayload hunpublished =>
    refine hinv.unchanged hsame (live_congr (current_congr hsame.place)
      (written_iff_of_look (by rw [hc]; nofun) (written_of_lock none rfl) hacc)) hpayload
      hunpublished hlock hknown fun d kind' via w hd => ?_
    rcases held_of_update hacc hd with hd | ⟨rfl, ha⟩
    · exact .inl hd
    · have hvia := via_of_lock rfl ha
      subst hvia
      refine .inr ⟨hm, fun g hg => ?_⟩
      exact (hinv.unpublished_owner (mod_in_of_unmigrated hm) g hg).symm
  | @ownerLock _ c kind _ ok hwork hself hbit hdata hc hacc hpayload hunpublished =>
    have hun := hstays cfg.owner rfl
    refine hinv.lockCall hwork hself hbit (hdata.imp id fun h => ⟨h, ?_, hun⟩)
      (live_congr (current_congr hwork.place)
        (written_iff_of_look (by rw [hc]; nofun) (written_of_lock none rfl) hacc))
      hpayload hunpublished hlock hknown hun fun d kind' via w hd => ?_
    · -- an update through the current pointer would be one on another host
      rintro d h v ⟨via, hd, hvia, rfl⟩
      cases via with
      | none => rfl
      | some p => exact absurd (hvia p rfl) (hwaits d p (by rw [hd]; rfl))
    · rcases held_of_update hacc hd with hd | ⟨rfl, ha⟩
      · exact .inl hd
      · have hvia := via_of_lock rfl ha
        subst hvia
        exact .inr rfl
  | @remoteLock _ c kind ok p a hwork hself hbit hin hdata hc ha hacc hpayload hunpublished =>
    refine hinv.lockCall hwork hself hbit (.inl ⟨hin, hdata⟩)
      (live_congr (current_congr hwork.place) (written_iff_of_look
        (ne_written_of_held hc) (written_of_lock (some p) ha) hacc))
      hpayload hunpublished hlock hknown (hstays _ rfl) fun d kind' via w hd => ?_
    rcases held_of_update hacc hd with hd | ⟨rfl, ha'⟩
    · exact .inl hd
    · have hvia := via_of_lock ha ha'
      subst hvia
      exact .inr rfl
  | update hwork hself hbit hin hc hvia hacc hpayload hunpublished =>
    exact hinv.update hc hwork hself hbit hin hvia hacc hpayload hunpublished hlock hknown
  | updateLocal hm hm' hdata hout hc hacc hpayload hunpublished =>
    exact hinv.updateLocal hc hm hm' hdata hout rfl hacc hunpublished hlock hknown
  | @release _ c kind via₀ hsame hc hacc hpayload hunpublished =>
    refine hinv.unchanged hsame (live_congr (current_congr hsame.place)
      (written_iff_of_look (by rw [hc]; nofun)
        (ne_written_of_held (held_afterLock _)) hacc)) hpayload
      hunpublished hlock hknown fun d kind via w hd => .inl ?_
    rcases held_of_update hacc hd with hd | ⟨-, ha⟩
    · exact hd
    · have hnone : (Access.afterLock via₀ : Access α).held = none := held_afterLock via₀
      rw [ha] at hnone
      cases hnone
  | releaseVersion hm hplace hin hdata hself hmemory hbit hc hvia hacc hpayload hunpublished =>
    exact hinv.releaseVersion hc hm hplace hin hdata hself hmemory hbit hvia hacc hpayload
      hunpublished hlock hknown
  | releaseVersionLocal hm hsame hc hacc hpayload hunpublished =>
    exact hinv.releaseVersionLocal hc hm hsame rfl hacc hpayload hunpublished hlock hknown
  | releaseScan hsame hc hvia hacc hpayload hunpublished =>
    exact hinv.releaseScan hc rfl hsame hvia hacc hpayload hunpublished hlock hknown
  | moveIn hm hm' hrow hx hself hmemory hbit hdata hallocated hacc hpayload hunpublished =>
    exact hinv.moveIn hm hm' hrow hx hself hmemory hbit hdata hallocated hacc hpayload
      hunpublished hlock hknown
  | moveOut hm hm' hdata hself hallocated hacc hpayload hunpublished =>
    exact hinv.moveOut hm hm' hdata hself hallocated hacc hpayload hunpublished
      (hstays cfg.owner rfl) hlock hknown

end Steps

theorem coherent_start (cfg : Config C) (smeta : Ptr → TwoPLPashaMetadataShared)
    (scc : Word → TwoPLPashaSharedDataSCC α)
    (copy : Word → Host → Option (TwoPLPashaSharedDataSCC α)) (value : α) :
    (start smeta scc copy value : CachedSystem α C).Coherent cfg := by
  have hfree : ∀ d kind via w, (start smeta scc copy value : CachedSystem α C).base.access d ≠
      .holding kind via w := nofun
  refine coherent_of_unmigrated rfl (lockInv_start smeta scc value .committed)
    ⟨nofun, nofun⟩ ?_ ?_ (expected_of_free hfree fun _ => rfl) ?_
  · intro hout
    cases hout
  · intro hout
    cases hout
  · nofun

end CachedSystem

end Tigon.TwoPLPasha
