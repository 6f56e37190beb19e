import Tigon.Library.Census
import Tigon.SundialPasha.RowSystem

namespace Tigon.SundialPasha

open Function Option RowState Except SCCManager Shared Tigon.Library
open Tigon.Sundial (Row)

variable {τ α : Type} [DecidableEq τ] {op : Op τ α}

theorem is_valid_call {r r' : Row τ α} {answer : Answer α} (h : call op r = .ok (r', answer)) :
    r'.is_valid = r.is_valid := by
  cases op with
  | read =>
    cases h
    rfl
  | write_lock t =>
    rw [call_write_lock] at h
    obtain ⟨rfl, -⟩ := Prod.mk.inj (ok.inj h)
    rcases r.write_lock_spec t with ⟨-, -, -, hrow, -⟩ | ⟨-, hrow⟩ <;> rw [hrow]
  | renew_lease wts commit_ts =>
    rw [call_renew_lease] at h
    obtain ⟨rfl, -⟩ := Prod.mk.inj (ok.inj h)
    rcases r.renew_lease_spec wts commit_ts with ⟨-, -, -, hrow⟩ | ⟨-, hrow⟩ <;> rw [hrow]
  | update value commit_ts t => rw [(call_update_eq_ok h).2]
  | unlock t => rw [(call_unlock_eq_ok h).2]

theorem call_ok {r : Row τ α} (hvalid : r.is_valid = true)
    (hlock : op.needsLock = true → r.owner = op.transaction) :
    ∃ r' answer, call op r = .ok (r', answer) := by
  cases op with
  | read | write_lock t | renew_lease wts commit_ts => exact ⟨_, _, rfl⟩
  | update value commit_ts t =>
    have howner : r.owner = some t := hlock rfl
    exact ⟨_, _, by simp [call, Row.update, hvalid, howner]; exact ⟨rfl, rfl⟩⟩
  | unlock t =>
    have howner : r.owner = some t := hlock rfl
    exact ⟨_, _, by simp [call, Row.unlock, hvalid, howner]; exact ⟨rfl, rfl⟩⟩

namespace Shared

variable {scc : SCCManager} {host : Host} {remote : Bool} {op : Op τ α} {m m' : Shared τ α}
  {answer : Answer α} {e : Check}

theorem call_eq_ok (h : m.call scc host remote op = .ok (m', answer)) :
    m.is_valid = true ∧ SundialPasha.call op m.toRow = .ok (m'.toRow, answer) ∧
      m'.ref_cnt = m.ref_cnt := by
  unfold call at h
  split at h
  · cases h
  · rename_i hvalid
    split at h
    · cases h
    · cases hcall : SundialPasha.call op m.toRow with
      | error e =>
        rw [hcall] at h
        cases h
      | ok res =>
        rw [hcall] at h
        cases hscc : op.scc scc host m.scc_meta with
        | error e =>
          rw [hscc] at h
          cases h
        | ok bits =>
          rw [hscc] at h
          cases h
          exact ⟨by simpa using hvalid, rfl, rfl⟩

-- A valid row with a reference refuses a call only where the row itself or the SCC
-- manager does.
theorem call_eq_error (hvalid : m.is_valid = true) (href : remote = true → m.ref_cnt ≠ 0)
    (h : m.call scc host remote op = .error e) :
    SundialPasha.call op m.toRow = .error e ∨ op.scc scc host m.scc_meta = .error e := by
  unfold call at h
  rw [if_neg (by simp [hvalid]), if_neg fun hzero => href hzero.1 hzero.2] at h
  cases hcall : SundialPasha.call op m.toRow with
  | error e' =>
    rw [hcall] at h
    cases h
    exact .inl rfl
  | ok res =>
    rw [hcall] at h
    cases hscc : op.scc scc host m.scc_meta with
    | error e' =>
      rw [hscc] at h
      cases h
      exact .inr rfl
    | ok bits =>
      rw [hscc] at h
      cases h

end Shared

namespace SCCManager

variable {scc : SCCManager} {host : Host} {bits : Bitmap} {e : Check}

theorem init_scc_metadata_error (h : scc.init_scc_metadata host = .error e) : e = .scc_meta := by
  cases scc with
  | WriteThrough =>
    simp only [init_scc_metadata] at h
    split at h <;> cases h
    rfl
  | NoOP | NonTemporal => cases h

theorem do_read_error (h : scc.do_read host bits = .error e) : e = .scc_meta := by
  cases scc with
  | WriteThrough =>
    simp only [do_read] at h
    split at h <;> cases h
    rfl
  | NoOP | NonTemporal => cases h

theorem do_write_error (h : scc.do_write host bits = .error e) : e = .scc_meta := by
  cases scc with
  | WriteThrough =>
    simp only [do_write] at h
    split at h <;> cases h
    rfl
  | NoOP | NonTemporal => cases h

end SCCManager

omit [DecidableEq τ] in
theorem Op.scc_error {scc : SCCManager} {host : Host} {bits : Bitmap} {e : Check}
    (h : op.scc scc host bits = .error e) : e = .scc_meta := by
  cases op with
  | read => exact do_read_error h
  | update value commit_ts t => exact do_write_error h
  | write_lock t | renew_lease wts commit_ts | unlock t => cases h

namespace RowSystem

variable {c : Cluster τ} {s s' : RowSystem τ α} {l : RowLabel τ α} {row : Row τ α}

-- The local metadata says where the row is, the CXL index has it exactly while it is
-- migrated, and its count is the number of references held.
structure WF (s : RowSystem τ α) : Prop where
  valid : s.row.lmeta.is_valid = true
  index : s.row.cxl = s.row.lmeta.migrated_row
  shared : ∀ p, s.row.lmeta.migrated_row = some p → (s.row.heap p).is_valid = true ∧
    Census (fun t => (s.refs t).isSome) (s.row.heap p).ref_cnt
  refs : ∀ t p, s.refs t = some p → s.row.lmeta.migrated_row = some p
  found : ∀ t p, s.found t = some p →
    s.row.lmeta.migrated_row = some p ∨ (s.row.heap p).is_valid = false

omit [DecidableEq τ] in
theorem view_of_none (h : s.row.lmeta.migrated_row = none) : s.view = s.row.lmeta.toRow := by
  simp only [view, h]

variable {p : Ptr}

omit [DecidableEq τ] in
theorem WF.view_of_some (hs : s.WF) (h : s.row.lmeta.migrated_row = some p) :
    s.view = (s.row.heap p).toRow := by
  have hvalid : s.row.lmeta.is_valid = (s.row.heap p).is_valid := by
    rw [hs.valid, (hs.shared p h).1]
  simp only [view, h, hvalid]

structure Called (op : Op τ α) (s : RowSystem τ α) (res : RowState τ α × Answer α) : Prop where
  wf : (s.record op res).WF
  call : SundialPasha.call op s.view = .ok ((s.record op res).view, res.2)

variable {op : Op τ α}

theorem called_shared {host : Host} {remote : Bool} {m : Shared τ α} {answer : Answer α} (hs : s.WF)
    (hp : s.row.lmeta.migrated_row = some p)
    (h : (s.row.heap p).call c.scc host remote op = .ok (m, answer)) :
    Called op s ({ s.row with heap := update s.row.heap p m }, answer) := by
  obtain ⟨hvalid, hcall, hcnt⟩ := call_eq_ok h
  have hm : m.is_valid = true := (is_valid_call hcall).trans hvalid
  have hwf : (s.record op ({ s.row with heap := update s.row.heap p m }, answer)).WF := by
    refine ⟨hs.valid, hs.index, fun q hq => ?_, hs.refs, fun t q hq => ?_⟩
    · obtain rfl : p = q := some.inj (hp.symm.trans hq)
      have hcensus := (hs.shared p hp).2
      simp only [record, update_self]
      exact ⟨hm, hcnt ▸ hcensus⟩
    · by_cases hqp : q = p
      · exact .inl (hqp ▸ hp)
      · simp only [record, update_of_ne hqp]
        exact hs.found t q hq
  refine ⟨hwf, ?_⟩
  rw [hs.view_of_some hp, hwf.view_of_some hp, hcall]
  simp [record]

theorem called_localCall {res : RowState τ α × Answer α} (hs : s.WF)
    (h : s.row.localCall c.scc c.owner op = .ok res) : Called op s res := by
  unfold localCall Local.call at h
  cases hp : s.row.lmeta.migrated_row with
  | none =>
    simp only [hp] at h
    cases hcall : SundialPasha.call op s.row.lmeta.toRow with
    | error e =>
      rw [hcall] at h
      cases h
    | ok r =>
      rw [hcall] at h
      cases h
      have hvalid : r.1.is_valid = true := (is_valid_call hcall).trans hs.valid
      refine ⟨⟨hvalid, hs.index.trans hp, nofun, fun t p hr => ?_, fun t p hf => ?_⟩, ?_⟩
      · rw [hs.refs t p hr] at hp
        cases hp
      · refine (hs.found t p hf).imp_left fun hsome => ?_
        rw [hsome] at hp
        cases hp
      · rw [view_of_none hp, hcall]
        rfl
  | some p =>
    simp only [hp] at h
    rw [if_neg (by simp [hs.valid])] at h
    cases hcall : (s.row.heap p).call c.scc c.owner false op with
    | error e =>
      rw [hcall] at h
      cases h
    | ok r =>
      rw [hcall] at h
      cases h
      exact called_shared hs hp hcall

variable {t : τ}

theorem called_remoteCall {res : RowState τ α × Answer α} (hs : s.WF) (href : s.refs t = some p)
    (h : s.row.remoteCall c.scc (c.home t) op p = .ok res) : Called op s res := by
  unfold remoteCall at h
  cases hcall : (s.row.heap p).call c.scc (c.home t) true op with
  | error e =>
    rw [hcall] at h
    cases h
  | ok r =>
    rw [hcall] at h
    cases h
    exact called_shared hs (hs.refs t p href) hcall

structure Quiet (s s' : RowSystem τ α) : Prop where
  wf : s'.WF
  view : s'.view = s.view
  trace : s'.trace = s.trace

omit [DecidableEq τ] in
theorem isSome_update [DecidableEq τ] (f : τ → Option Ptr) (t u : τ) (p : Ptr) :
    (update f t (some p) u).isSome ↔ u = t ∨ (f u).isSome := by
  by_cases hut : u = t
  · subst hut
    simp
  · simp [hut]

omit [DecidableEq τ] in
theorem isSome_update_none [DecidableEq τ] (f : τ → Option Ptr) (t u : τ) :
    (update f t none u).isSome ↔ u ≠ t ∧ (f u).isSome := by
  by_cases hut : u = t
  · subst hut
    simp
  · simp [hut]

variable {n : Nat}

omit [DecidableEq τ] in
theorem quiet_ref_cnt {refs found : τ → Option Ptr} (hs : s.WF)
    (hp : s.row.lmeta.migrated_row = some p) (hn : Census (fun t => (refs t).isSome) n)
    (hrefs : ∀ t q, refs t = some q → q = p)
    (hfound : ∀ t q, found t = some q → s.found t = some q) :
    Quiet s { s with
      row := { s.row with
        heap := update s.row.heap p { s.row.heap p with ref_cnt := n } }
      refs := refs
      found := found } := by
  have hvalid := (hs.shared p hp).1
  have hwf : WF { s with
      row := { s.row with
        heap := update s.row.heap p { s.row.heap p with ref_cnt := n } }
      refs := refs
      found := found } := by
    refine ⟨hs.valid, hs.index, fun q hq => ?_, fun t q hq => ?_, fun t q hq => ?_⟩
    · obtain rfl : p = q := some.inj (hp.symm.trans hq)
      simp only [update_self]
      exact ⟨hvalid, hn⟩
    · rw [hrefs t q hq]
      exact hp
    · by_cases hqp : q = p
      · exact .inl (hqp ▸ hp)
      · simp only [update_of_ne hqp]
        exact hs.found t q (hfound t q hq)
  refine ⟨hwf, ?_, rfl⟩
  rw [hwf.view_of_some hp, hs.view_of_some hp]
  simp

theorem quiet_search (hs : s.WF) (t : τ) :
    Quiet s { s with found := update s.found t s.row.cxl } := by
  refine ⟨⟨hs.valid, hs.index, hs.shared, hs.refs, fun u p hu => ?_⟩, rfl, rfl⟩
  by_cases hut : u = t
  · subst hut
    simp only [update_self] at hu
    exact .inl (hs.index ▸ hu)
  · simp only [update_of_ne hut] at hu
    exact hs.found u p hu

theorem found_of_update {f : τ → Option Ptr} {u : τ} {q : Ptr}
    (h : update f t none u = some q) : f u = some q := by
  by_cases hut : u = t
  · subst hut
    simp at h
  · rwa [update_of_ne hut] at h

theorem quiet_get_migrated_row (hs : s.WF) (hnone : s.refs t = none) (hfound : s.found t = some p) :
    Quiet s { s with
      row := (s.row.get_migrated_row_latched p true).1
      found := update s.found t none
      refs := update s.refs t (s.row.get_migrated_row_latched p true).2 } := by
  unfold get_migrated_row_latched
  by_cases hvalid : (s.row.heap p).is_valid = true
  · have hp : s.row.lmeta.migrated_row = some p :=
      (hs.found t p hfound).resolve_right (by simp [hvalid])
    have hcensus := (hs.shared p hp).2.gain (t := t) (by simp [hnone])
      (isSome_update s.refs t · p)
    rw [if_pos hvalid, if_pos rfl]
    refine quiet_ref_cnt hs hp hcensus (fun u q hu => ?_) fun u q hu => found_of_update hu
    by_cases hut : u = t
    · subst hut
      rw [update_self] at hu
      exact (some.inj hu).symm
    · rw [update_of_ne hut] at hu
      exact some.inj ((hs.refs u q hu).symm.trans hp)
  · have hkeep : update s.refs t none = s.refs := by
      rw [← hnone, update_eq_self]
    rw [if_neg hvalid]
    refine ⟨⟨hs.valid, hs.index, ?_, ?_, fun u q hu => hs.found u q (found_of_update hu)⟩, rfl, rfl⟩
    · simpa only [hkeep] using hs.shared
    · simpa only [hkeep] using hs.refs

theorem quiet_release {r : RowState τ α} (hs : s.WF) (hsome : (s.refs t).isSome)
    (h : s.row.release_migrated_row = .ok r) :
    Quiet s { s with row := r, refs := update s.refs t none } := by
  obtain ⟨p, href⟩ := isSome_iff_exists.mp hsome
  have hp := hs.refs t p href
  have hcxl : s.row.cxl = some p := hs.index.trans hp
  unfold release_migrated_row at h
  simp only [hcxl] at h
  split at h
  · cases h
  · split at h
    · cases h
    · cases h
      have hcensus := (hs.shared p hp).2.loss (t := t) hsome (isSome_update_none s.refs t)
      rw [← hcxl]
      refine quiet_ref_cnt hs hp hcensus (fun u q hu => ?_) fun _ _ hu => hu
      exact some.inj ((hs.refs u q (found_of_update hu)).symm.trans hp)

omit [DecidableEq τ] in
theorem quiet_install {bits : Bitmap} {refs : τ → Option Ptr} (hs : s.WF)
    (hnone : s.row.lmeta.migrated_row = none) (hn : Census (fun t => (refs t).isSome) n)
    (hrefs : ∀ t q, refs t = some q → q = p) :
    Quiet s { s with
      row := ⟨{ s.row.lmeta with migrated_row := some p },
        update s.row.heap p ⟨{ s.row.lmeta.toRow with is_valid := true }, n, bits⟩,
        some p⟩
      refs := refs } := by
  refine ⟨⟨hs.valid, rfl, fun q hq => ?_, fun t q hq => ?_, fun t q hq => ?_⟩, ?_, rfl⟩
  · obtain rfl : p = q := some.inj hq
    simp only [update_self]
    exact ⟨trivial, hn⟩
  · exact congrArg some (hrefs t q hq).symm
  · by_cases hqp : q = p
    · exact .inl (congrArg some hqp.symm)
    · simp only [update_of_ne hqp]
      refine .inr ((hs.found t q hq).resolve_left ?_)
      rw [hnone]
      exact nofun
  · rw [view_of_none hnone]
    simp only [view, update_self]

def granted (s : RowSystem τ α) (requester : Option τ) (p : Ptr) : τ → Option Ptr :=
  match requester with
  | none => s.refs
  | some t => update s.refs t (some p)

variable {requester : Option τ}

theorem census_granted (p : Ptr) (hfree : ∀ t, requester = some t → s.refs t = none)
    (hn : Census (fun t => (s.refs t).isSome) n) :
    Census (fun t => (s.granted requester p t).isSome)
      (n + if requester.isSome then 1 else 0) := by
  cases requester with
  | none => exact hn
  | some u => exact hn.gain (t := u) (by simp [hfree u rfl]) (isSome_update s.refs u · p)

theorem granted_eq {q : Ptr} (hrefs : ∀ t q, s.refs t = some q → q = p)
    (h : s.granted requester p t = some q) : q = p := by
  cases requester with
  | none => exact hrefs t q h
  | some u =>
    by_cases htu : t = u
    · subst htu
      simp only [granted, update_self, some.injEq] at h
      exact h.symm
    · simp only [granted, update_of_ne htu] at h
      exact hrefs t q h

theorem moveIn_eq_ok (h : s.moveIn c p requester = .ok s') :
    ∃ r res, s.row.move_from_hashmap_to_shared_region c.scc c.owner p requester.isSome
        = .ok (r, res) ∧
      ∀ q, r.lmeta.migrated_row = some q →
        s' = { s with row := r, refs := s.granted requester q } := by
  unfold moveIn at h
  cases hmove : s.row.move_from_hashmap_to_shared_region c.scc c.owner p requester.isSome with
  | error e =>
    rw [hmove] at h
    cases h
  | ok res =>
    rw [hmove] at h
    refine ⟨res.1, res.2, rfl, fun q hq => ?_⟩
    cases requester with
    | none =>
      cases h
      rfl
    | some t =>
      cases h
      simp only [granted, hq]

theorem quiet_moveIn (hs : s.WF) (hfree : ∀ t, requester = some t → s.refs t = none)
    (h : s.moveIn c p requester = .ok s') : Quiet s s' := by
  obtain ⟨r, res, hmove, hs'⟩ := moveIn_eq_ok h
  unfold move_from_hashmap_to_shared_region at hmove
  rw [if_neg (by simp [hs.valid])] at hmove
  cases hp : s.row.lmeta.migrated_row with
  | none =>
    simp only [hp] at hmove
    have hnone : ∀ t, s.refs t = none := by
      intro t
      by_contra hne
      obtain ⟨q, hq⟩ := ne_none_iff_exists'.mp hne
      rw [hs.refs t q hq] at hp
      cases hp
    have hcxl : s.row.cxl = none := hs.index.trans hp
    cases hinit : c.scc.init_scc_metadata c.owner with
    | error e =>
      rw [hinit] at hmove
      cases hmove
    | ok bits =>
      rw [hinit] at hmove
      cases hwrite : c.scc.do_write c.owner bits with
      | error e =>
        simp only [bind, Except.bind, hwrite] at hmove
        cases hmove
      | ok bits' =>
        simp only [bind, Except.bind, hwrite, hcxl] at hmove
        cases hmove
        obtain rfl := hs' p rfl
        have hcensus := census_granted p hfree
          (Census.none fun t => by simp [hnone t] : Census (fun t => (s.refs t).isSome) 0)
        rw [zero_add] at hcensus
        refine quiet_install hs hp hcensus fun t q hq => granted_eq (fun u q' hu => ?_) hq
        rw [hnone u] at hu
        cases hu
  | some q =>
    have hcensus := census_granted q hfree (hs.shared q hp).2
    have hrefs : ∀ t q', s.refs t = some q' → q' = q := fun t q' ht =>
      some.inj ((hs.refs t q' ht).symm.trans hp)
    simp only [hp] at hmove
    cases requester with
    | none =>
      cases hmove
      obtain rfl := hs' q hp
      exact ⟨hs, rfl, rfl⟩
    | some t =>
      simp only [isSome_some, if_true] at hmove
      split at hmove
      · cases hmove
      · cases hmove
        obtain rfl := hs' q hp
        exact quiet_ref_cnt hs hp hcensus (fun u q' hu => granted_eq hrefs hu)
          fun _ _ hu => hu

omit [DecidableEq τ] in
theorem quiet_moveOut {r : RowState τ α} {moved : Bool} (hs : s.WF)
    (h : s.row.move_from_hashmap_to_partition c.scc c.owner = .ok (r, moved)) :
    Quiet s { s with row := r } := by
  unfold move_from_hashmap_to_partition at h
  rw [if_neg (by simp [hs.valid])] at h
  cases hp : s.row.lmeta.migrated_row with
  | none =>
    simp only [hp] at h
    cases h
  | some p =>
    obtain ⟨hvalid, hcensus⟩ := hs.shared p hp
    simp only [hp] at h
    rw [if_neg (by simp [hvalid])] at h
    split at h
    · cases h
      exact ⟨hs, rfl, rfl⟩
    · rename_i hcnt
      cases hbits : c.scc.do_read c.owner (s.row.heap p).scc_meta with
      | error e =>
        rw [hbits] at h
        cases h
      | ok bits =>
        rw [hbits] at h
        have hcxl : s.row.cxl = some p := hs.index.trans hp
        simp only [bind, bind, hcxl, ne_eq, not_true_eq_false, if_false] at h
        cases h
        have hrefs : ∀ t, s.refs t = none := by
          intro t
          have hzero : (s.row.heap p).ref_cnt = 0 := by omega
          rw [hzero] at hcensus
          by_contra hne
          exact absurd (hcensus.pos (isSome_iff_ne_none.mpr hne)) (lt_irrefl 0)
        refine ⟨⟨hs.valid, rfl, nofun, fun t q hq => ?_, fun t q hq => .inr ?_⟩, ?_, rfl⟩
        · rw [hrefs t] at hq
          cases hq
        · by_cases hqp : q = p
          · subst hqp
            simp
          · simp only [update_of_ne hqp]
            refine (hs.found t q hq).resolve_left fun hsome => hqp ?_
            exact some.inj (hsome.symm.trans hp)
        · rw [hs.view_of_some hp, view_of_none rfl, hs.valid]
          simp [← hvalid]

omit [DecidableEq τ] in
theorem Quiet.refl (hs : s.WF) : Quiet s s := ⟨hs, rfl, rfl⟩

theorem attempt_eq_ok (hs : s.WF) (hl : s.Disciplined l) (h : s.attempt c l = .ok s') :
    Quiet s s' ∨ ∃ op res, Called op s res ∧ s' = s.record op res := by
  cases l with
  | localCall op =>
    cases hcall : s.row.localCall c.scc c.owner op with
    | error e =>
      simp only [attempt, hcall] at h
      cases h
    | ok res =>
      simp only [attempt, hcall] at h
      cases h
      exact .inr ⟨op, res, called_localCall hs hcall, rfl⟩
  | remoteCall t op =>
    obtain ⟨p, href⟩ := isSome_iff_exists.mp hl.1
    cases hcall : s.row.remoteCall c.scc (c.home t) op p with
    | error e =>
      simp only [attempt, href, hcall] at h
      cases h
    | ok res =>
      simp only [attempt, href, hcall] at h
      cases h
      exact .inr ⟨op, res, called_remoteCall hs href hcall, rfl⟩
  | search t =>
    cases h
    exact .inl (quiet_search hs t)
  | get_migrated_row t =>
    cases hfound : s.found t with
    | none =>
      simp only [attempt, hfound] at h
      cases h
      exact .inl (.refl hs)
    | some p =>
      simp only [attempt, hfound] at h
      cases h
      exact .inl (quiet_get_migrated_row hs hl hfound)
  | release_migrated_row t =>
    cases hrelease : s.row.release_migrated_row with
    | error e =>
      simp only [attempt, hrelease] at h
      cases h
    | ok r =>
      simp only [attempt, hrelease] at h
      cases h
      exact .inl (quiet_release hs hl hrelease)
  | move_in p requester => exact .inl (quiet_moveIn hs hl h)
  | move_out =>
    cases hmove : s.row.move_from_hashmap_to_partition c.scc c.owner with
    | error e =>
      simp only [attempt, hmove] at h
      cases h
    | ok res =>
      simp only [attempt, hmove] at h
      cases h
      exact .inl (quiet_moveOut hs hmove)

variable {e : Check}

theorem localCall_error (hs : s.WF) (hlock : op.needsLock = true → s.view.owner = op.transaction)
    (h : s.row.localCall c.scc c.owner op = .error e) : e = .scc_meta := by
  unfold localCall Local.call at h
  cases hp : s.row.lmeta.migrated_row with
  | none =>
    obtain ⟨r, answer, hcall⟩ := call_ok (view_of_none hp ▸ hs.valid) hlock
    rw [view_of_none hp] at hcall
    simp only [hp] at h
    rw [hcall] at h
    cases h
  | some p =>
    have hvalid := (hs.shared p hp).1
    have hview := hs.view_of_some hp
    obtain ⟨r, answer, hcall⟩ := call_ok (hview ▸ hvalid) hlock
    simp only [hp] at h
    rw [if_neg (by simp [hs.valid])] at h
    cases hshared : (s.row.heap p).call c.scc c.owner false op with
    | ok res =>
      rw [hshared] at h
      cases h
    | error e' =>
      rw [hshared] at h
      cases h
      rcases call_eq_error hvalid (by simp) hshared with herr | herr
      · rw [hview, herr] at hcall
        cases hcall
      · exact Op.scc_error herr

theorem remoteCall_error (hs : s.WF) (href : s.refs t = some p)
    (hlock : op.needsLock = true → s.view.owner = op.transaction)
    (h : s.row.remoteCall c.scc (c.home t) op p = .error e) : e = .scc_meta := by
  have hp := hs.refs t p href
  obtain ⟨hvalid, hcensus⟩ := hs.shared p hp
  have hview := hs.view_of_some hp
  have hcnt := hcensus.pos (t := t) (by simp [href])
  obtain ⟨r, answer, hcall⟩ := call_ok (hview ▸ hvalid) hlock
  unfold remoteCall at h
  cases hshared : (s.row.heap p).call c.scc (c.home t) true op with
  | ok res =>
    rw [hshared] at h
    cases h
  | error e' =>
    rw [hshared] at h
    cases h
    rcases call_eq_error hvalid (fun _ => by omega) hshared with herr | herr
    · rw [hview, herr] at hcall
      cases hcall
    · exact Op.scc_error herr

omit [DecidableEq τ] in
theorem release_ok (hs : s.WF) (hsome : (s.refs t).isSome) :
    ∃ r, s.row.release_migrated_row = .ok r := by
  obtain ⟨p, href⟩ := isSome_iff_exists.mp hsome
  have hp := hs.refs t p href
  obtain ⟨hvalid, hcensus⟩ := hs.shared p hp
  have hcnt := hcensus.pos hsome
  have hcxl : s.row.cxl = some p := hs.index.trans hp
  unfold release_migrated_row
  simp only [hcxl]
  rw [if_neg (by simp [hvalid]), if_neg (by omega)]
  exact ⟨_, rfl⟩

theorem moveIn_error (hs : s.WF) (h : s.moveIn c p requester = .error e) : e = .scc_meta := by
  unfold moveIn at h
  cases hmove : s.row.move_from_hashmap_to_shared_region c.scc c.owner p requester.isSome with
  | ok res =>
    rw [hmove] at h
    cases requester <;> cases h
  | error e' =>
    rw [hmove] at h
    cases h
    unfold move_from_hashmap_to_shared_region at hmove
    rw [if_neg (by simp [hs.valid])] at hmove
    cases hp : s.row.lmeta.migrated_row with
    | none =>
      have hcxl : s.row.cxl = none := hs.index.trans hp
      simp only [hp] at hmove
      cases hinit : c.scc.init_scc_metadata c.owner with
      | error e' =>
        rw [hinit] at hmove
        cases hmove
        exact init_scc_metadata_error hinit
      | ok bits =>
        rw [hinit] at hmove
        cases hwrite : c.scc.do_write c.owner bits with
        | error e' =>
          simp only [bind, Except.bind, hwrite] at hmove
          cases hmove
          exact do_write_error hwrite
        | ok bits' =>
          simp only [bind, Except.bind, hwrite, hcxl] at hmove
          cases hmove
    | some q =>
      have hvalid := (hs.shared q hp).1
      simp only [hp, hvalid] at hmove
      split at hmove <;> cases hmove

omit [DecidableEq τ] in
theorem moveOut_error (hs : s.WF)
    (h : s.row.move_from_hashmap_to_partition c.scc c.owner = .error e) :
    e = .scc_meta ∨ (e = .is_migrated ∧ s.row.lmeta.migrated_row = none) := by
  unfold move_from_hashmap_to_partition at h
  rw [if_neg (by simp [hs.valid])] at h
  cases hp : s.row.lmeta.migrated_row with
  | none =>
    simp only [hp] at h
    cases h
    exact .inr ⟨rfl, rfl⟩
  | some p =>
    have hcxl : s.row.cxl = some p := hs.index.trans hp
    simp only [hp] at h
    rw [if_neg (by simp [(hs.shared p hp).1])] at h
    split at h
    · cases h
    · cases hbits : c.scc.do_read c.owner (s.row.heap p).scc_meta with
      | error e' =>
        rw [hbits] at h
        cases h
        exact .inl (do_read_error hbits)
      | ok bits =>
        rw [hbits] at h
        simp only [bind, bind, hcxl, ne_eq, not_true_eq_false, if_false] at h
        cases h

-- The CHECKs that can fail are the SCC manager's own and the one against moving out a row
-- that has not been moved in.
theorem attempt_error (hs : s.WF) (hl : s.Disciplined l) (h : s.attempt c l = .error e) :
    e = .scc_meta ∨ (e = .is_migrated ∧ s.row.lmeta.migrated_row = none) := by
  cases l with
  | localCall op =>
    cases hcall : s.row.localCall c.scc c.owner op with
    | ok res =>
      simp only [attempt, hcall] at h
      cases h
    | error e' =>
      simp only [attempt, hcall] at h
      cases h
      exact .inl (localCall_error hs hl hcall)
  | remoteCall t op =>
    obtain ⟨p, href⟩ := isSome_iff_exists.mp hl.1
    cases hcall : s.row.remoteCall c.scc (c.home t) op p with
    | ok res =>
      simp only [attempt, href, hcall] at h
      cases h
    | error e' =>
      simp only [attempt, href, hcall] at h
      cases h
      exact .inl (remoteCall_error hs href hl.2 hcall)
  | search t => cases h
  | get_migrated_row t =>
    cases hfound : s.found t with
    | none | some p =>
      simp only [attempt, hfound] at h
      cases h
  | release_migrated_row t =>
    obtain ⟨r, hrelease⟩ := release_ok hs hl
    simp only [attempt, hrelease] at h
    cases h
  | move_in p requester => exact .inl (moveIn_error hs h)
  | move_out =>
    cases hmove : s.row.move_from_hashmap_to_partition c.scc c.owner with
    | ok res =>
      simp only [attempt, hmove] at h
      cases h
    | error e' =>
      simp only [attempt, hmove] at h
      cases h
      exact moveOut_error hs hmove

omit [DecidableEq τ] in
theorem wf_start {heap : Ptr → Shared τ α} (hvalid : row.is_valid = true) :
    (start row heap).WF :=
  ⟨hvalid, rfl, nofun, nofun, nofun⟩

-- In every reachable state the calls made so far, with their answers, are a run of one
-- row that does not migrate, and no CHECK on is_valid, ref_cnt, owner or the index entry
-- fails in the next step.
theorem migrations_are_transparent {heap : Ptr → Shared τ α} (hvalid : row.is_valid = true)
    (hreach : Reach (step c) Disciplined (start row heap) s) :
    Runs row s.trace s.view ∧
      ∀ l e, s.Disciplined l → s.attempt c l = .error e →
        e = .scc_meta ∨ (e = .is_migrated ∧ s.row.lmeta.migrated_row = none) := by
  have hinv : s.WF ∧ Runs row s.trace s.view := by
    refine hreach.invariant (P := fun s => s.WF ∧ Runs row s.trace s.view)
      ⟨wf_start hvalid, .nil⟩ ?_
    rintro s l s' ⟨hwf, hruns⟩ hl hstep
    have hok : s.attempt c l = .ok s' := by
      unfold step at hstep
      cases hattempt : s.attempt c l with
      | error e =>
        rw [hattempt] at hstep
        cases hstep
      | ok s'' =>
        rw [hattempt] at hstep
        cases hstep
        rfl
    rcases attempt_eq_ok hwf hl hok with hquiet | ⟨op, res, hcalled, rfl⟩
    · refine ⟨hquiet.wf, ?_⟩
      rw [hquiet.trace, hquiet.view]
      exact hruns
    · exact ⟨hcalled.wf, .snoc hruns hcalled.call⟩
  exact ⟨hinv.2, fun l e hl herr => attempt_error hinv.1 hl herr⟩

-- A transaction holds its lock through a move-in and a remote read, writes on the shared
-- row, and the write is there when the row has been moved out.
theorem migrations_are_transparent_with_a_held_lock :
    ∃ s : RowSystem Nat Nat,
      s.trace = [(.write_lock 1, .lock true (0, 0)), (.read, .read (0, 0) 3),
        (.update 5 1 1, .done), (.unlock 1, .done), (.read, .read (1, 1) 5)] ∧
      s.row.lmeta.migrated_row = none ∧ Runs ⟨0, 0, none, true, 3⟩ s.trace s.view := by
  obtain ⟨s, hreach, htrace, hout⟩ := exists_reach_of_run
    (step (α := Nat) ⟨.WriteThrough, 0, id⟩) Disciplined
    (start ⟨0, 0, none, true, 3⟩ fun _ => ⟨⟨0, 0, none, false, 0⟩, 0, fun _ => false⟩)
    [.localCall (.write_lock 1), .move_in 7 (some 2), .remoteCall 2 .read,
      .localCall (.update 5 1 1), .localCall (.unlock 1), .release_migrated_row 2, .move_out,
      .localCall .read]
    (fun s => s.trace = [(.write_lock 1, .lock true (0, 0)), (.read, .read (0, 0) 3),
        (.update 5 1 1, .done), (.unlock 1, .done), (.read, .read (1, 1) 5)] ∧
      s.row.lmeta.migrated_row = none)
    (by decide +kernel)
  exact ⟨s, htrace, hout, (migrations_are_transparent rfl hreach).1⟩

end RowSystem

end Tigon.SundialPasha
