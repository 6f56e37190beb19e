import Tigon.Aria.Reservations
import Tigon.Library.Transition

namespace Tigon.Aria

open List BitVec

open Tigon.Library AriaHelper

-- A reserve_read or reserve_write call; tids start at 1 and fit their field.
structure Call where
  is_write : Bool
  tid : BitVec 32
  tid_pos : 0 < tid.toNat
  tid_lt : tid.toNat < 2 ^ 20

namespace Call

def reserve (c : Call) (epoch : BitVec 32) (value : Word) : Option (Word × Bool) :=
  if c.is_write then reserve_write value epoch c.tid else reserve_read value epoch c.tid

end Call

def field (is_write : Bool) (value : Word) : Nat :=
  if is_write then (get_wts value).toNat else (get_rts value).toNat

inductive Phase
  | start
  | loaded (old_value new_value : Word)
  | returned (result : Bool)
deriving DecidableEq

structure Race (calls : List Call) where
  word : Word
  phase : Fin calls.length → Phase

namespace Race

variable {calls : List Call}

inductive Label (calls : List Call)
  | load (i : Fin calls.length)
  -- compare_exchange_weak may also fail on the expected value
  | compare_exchange_weak (i : Fin calls.length) (spurious : Bool)

def move (s : Race calls) (i : Fin calls.length) (p : Phase) : Race calls :=
  { s with phase := Function.update s.phase i p }

-- None: the call is not there, or its CHECK stops the process.
def step (epoch : BitVec 32) (s : Race calls) : Label calls → Option (Race calls)
  | .load i =>
    match s.phase i with
    | .start =>
      ((calls.get i).reserve epoch s.word).map fun
        | (_, false) => s.move i (.returned false)
        | (new_value, true) => s.move i (.loaded s.word new_value)
    | _ => none
  | .compare_exchange_weak i spurious =>
    match s.phase i with
    | .loaded old_value new_value =>
      if s.word = old_value ∧ spurious = false then
        some { s.move i (.returned true) with word := new_value }
      else
        some (s.move i .start)
    | _ => none

def init (word : Word) : Race calls := ⟨word, fun _ => .start⟩

end Race

-- What one round does to the word: it starts the epoch, lowers its field, or sees a
-- smaller tid there.
inductive Round (c : Call) (epoch : BitVec 32) (a : Word) : Word → Bool → Prop
  | renew {a' : Word} (hold : (get_epoch a).toNat < epoch.toNat)
      (hepoch : (get_epoch a').toNat = epoch.toNat)
      (hself : field c.is_write a' = c.tid.toNat) (hother : field (!c.is_write) a' = 0) :
      Round c epoch a a' true
  | lower {a' : Word} (hold : (get_epoch a).toNat = epoch.toNat)
      (hepoch : (get_epoch a').toNat = epoch.toNat)
      (hself : field c.is_write a' = c.tid.toNat)
      (hother : field (!c.is_write) a' = field (!c.is_write) a)
      (hle : field c.is_write a = 0 ∨ c.tid.toNat ≤ field c.is_write a) :
      Round c epoch a a' true
  | keep (hold : (get_epoch a).toNat = epoch.toNat)
      (hpos : field c.is_write a ≠ 0) (hlt : field c.is_write a < c.tid.toNat) :
      Round c epoch a a false

namespace AriaHelper

theorem reserve_cases {get get' : Word → Word} {set : Word → Word → Word} (hslot : Slot get set)
    (hother : ∀ value field, field.toNat < 2 ^ 20 → get' (set value field) = get' value)
    (hzero : ∀ epoch, epoch.toNat < 2 ^ 24 → get' (set_epoch 0 epoch) = 0)
    {a a' : Word} {ok : Bool} {epoch tid : BitVec 32} (hepoch : epoch.toNat < 2 ^ 24)
    (htid : tid.toNat < 2 ^ 20) (h : reserve get set a epoch tid = some (a', ok)) :
    ((get_epoch a).toNat < epoch.toNat ∧ ok = true ∧ (get_epoch a').toNat = epoch.toNat
        ∧ (get a').toNat = tid.toNat ∧ (get' a').toNat = 0)
      ∨ ((get_epoch a).toNat = epoch.toNat ∧ ok = true ∧ (get_epoch a').toNat = epoch.toNat
        ∧ (get a').toNat = tid.toNat ∧ get' a' = get' a
        ∧ ((get a).toNat = 0 ∨ tid.toNat ≤ (get a).toNat))
      ∨ ((get_epoch a).toNat = epoch.toNat ∧ ok = false ∧ a' = a ∧ (get a).toNat ≠ 0
        ∧ (get a).toNat < tid.toNat) := by
  have hwide : (epoch.setWidth 64).toNat = epoch.toNat := toNat_setWidth_of_le (by omega)
  have htide : (tid.setWidth 64).toNat = tid.toNat := toNat_setWidth_of_le (by omega)
  have hfield : (tid.setWidth 64).toNat < 2 ^ 20 := by omega
  simp only [reserve, lt_def, hwide, htide] at h
  by_cases hcheck : epoch.toNat < (get_epoch a).toNat
  · simp [if_pos hcheck] at h
  · rw [if_neg hcheck] at h
    by_cases hnew : (get_epoch a).toNat < epoch.toNat
    · left
      rw [if_pos hnew, Option.some.injEq, Prod.mk.injEq] at h
      obtain ⟨rfl, rfl⟩ := h
      rw [hslot.epoch _ _ hfield, get_epoch_set_epoch _ (by omega), hslot.self _ _ hfield,
        hother _ _ hfield, hzero _ (by omega)]
      exact ⟨hnew, rfl, hwide, htide, rfl⟩
    · right
      have hsame : (get_epoch a).toNat = epoch.toNat := by omega
      rw [if_neg hnew] at h
      by_cases hkeep : (get a).toNat < tid.toNat ∧ get a ≠ 0
      · right
        rw [if_pos hkeep, Option.some.injEq, Prod.mk.injEq] at h
        obtain ⟨rfl, rfl⟩ := h
        refine ⟨hsame, rfl, rfl, ?_, hkeep.1⟩
        intro hnone
        exact hkeep.2 (eq_of_toNat_eq hnone)
      · left
        rw [if_neg hkeep, Option.some.injEq, Prod.mk.injEq] at h
        obtain ⟨rfl, rfl⟩ := h
        rw [hslot.epoch _ _ hfield, hslot.self _ _ hfield, hother _ _ hfield]
        refine ⟨hsame, rfl, hsame, htide, rfl, ?_⟩
        by_cases hnone : get a = 0
        · left
          simp [hnone]
        · right
          by_contra hlt
          exact hkeep ⟨by omega, hnone⟩

theorem get_rts_set_epoch {epoch : Word} (h : epoch.toNat < 2 ^ 24) :
    get_rts (set_epoch 0 epoch) = 0 :=
  getField_setField_of_apart 40 24 20 20 (by omega) (by omega) 0 h (by omega)

theorem get_wts_set_epoch {epoch : Word} (h : epoch.toNat < 2 ^ 24) :
    get_wts (set_epoch 0 epoch) = 0 :=
  getField_setField_of_apart 40 24 0 20 (by omega) (by omega) 0 h (by omega)

end AriaHelper

variable {c : Call} {epoch : BitVec 32} {a a' : Word} {ok : Bool}

theorem Call.round (hepoch : epoch.toNat < 2 ^ 24) (h : c.reserve epoch a = some (a', ok)) :
    Round c epoch a a' ok := by
  obtain ⟨is_write, tid, hpos, hlt⟩ := c
  cases is_write with
  | true =>
    rcases reserve_cases slot_wts (fun value _ h => get_rts_set_wts value h)
        (fun _ h => get_rts_set_epoch h) hepoch hlt h with
      ⟨hold, rfl, he, hself, hother⟩ | ⟨hold, rfl, he, hself, hother, hle⟩
      | ⟨hold, rfl, rfl, hne, hlow⟩
    · exact .renew hold he hself hother
    · exact .lower hold he hself (congrArg BitVec.toNat hother) hle
    · exact .keep hold hne hlow
  | false =>
    rcases reserve_cases slot_rts (fun value _ h => get_wts_set_rts value h)
        (fun _ h => get_wts_set_epoch h) hepoch hlt h with
      ⟨hold, rfl, he, hself, hother⟩ | ⟨hold, rfl, he, hself, hother, hle⟩
      | ⟨hold, rfl, rfl, hne, hlow⟩
    · exact .renew hold he hself hother
    · exact .lower hold he hself (congrArg BitVec.toNat hother) hle
    · exact .keep hold hne hlow

theorem Call.exists_reserve (hold : (get_epoch a).toNat ≤ epoch.toNat) :
    ∃ a' ok, c.reserve epoch a = some (a', ok) := by
  have hcheck : ¬ epoch.setWidth 64 < get_epoch a := by
    rw [lt_def, toNat_setWidth_of_le (by omega)]
    omega
  simp only [Call.reserve, reserve_write, reserve_read, AriaHelper.reserve, if_neg hcheck]
  split <;> split <;> try split
  all_goals exact ⟨_, _, rfl⟩

section Least

-- 0 if no tid meets `P`, and the smallest that does otherwise.
def Least (P : Nat → Prop) (n : Nat) : Prop :=
  (n = 0 ∧ ∀ t, ¬ P t) ∨ (0 < n ∧ P n ∧ ∀ t, P t → n ≤ t)

variable {P Q : Nat → Prop} {n t : Nat}

theorem Least.congr (h : Least P n) (hPQ : ∀ u, Q u ↔ P u) : Least Q n := by
  simpa [Least, hPQ] using h

theorem Least.lower (h : Least P n) (ht : 0 < t) (hle : n = 0 ∨ t ≤ n)
    (hQ : ∀ u, Q u ↔ P u ∨ u = t) : Least Q t := by
  right
  refine ⟨ht, (hQ t).mpr (.inr rfl), ?_⟩
  intro u hu
  rcases (hQ u).mp hu with hPu | rfl
  · rcases h with ⟨-, hnone⟩ | ⟨hpos, -, hmin⟩
    · exact absurd hPu (hnone u)
    · have := hmin u hPu
      omega
  · exact le_refl u

theorem Least.keep (h : Least P n) (hne : n ≠ 0) (hle : n ≤ t)
    (hQ : ∀ u, Q u ↔ P u ∨ u = t) : Least Q n := by
  rcases h with ⟨hzero, -⟩ | ⟨hpos, hPn, hmin⟩
  · exact absurd hzero hne
  · right
    refine ⟨hpos, (hQ n).mpr (.inl hPn), ?_⟩
    intro u hu
    rcases (hQ u).mp hu with hPu | rfl
    · exact hmin u hPu
    · exact hle

theorem Least.min? {tids : List Nat} (h : Least (· ∈ tids) n) : n = tids.min?.getD 0 := by
  rcases h with ⟨hzero, hnone⟩ | ⟨hpos, hmem, hmin⟩
  · rw [eq_nil_iff_forall_not_mem.mpr hnone, hzero]
    rfl
  · rw [List.min?_eq_some_iff.mpr ⟨hmem, hmin⟩]
    rfl

end Least

namespace Race

variable {calls : List Call} {start : Word} {s s' : Race calls} {i : Fin calls.length}

def IsReturned (p : Phase) : Prop := ∃ result, p = .returned result

def Returned (s : Race calls) (is_write : Bool) (tid : Nat) : Prop :=
  ∃ i, IsReturned (s.phase i) ∧ (calls.get i).is_write = is_write
    ∧ (calls.get i).tid.toNat = tid

-- The word is the start word or the summary of the returned calls, and what a call is
-- about to write is what its round makes of the value it loaded.
structure Summary (epoch : BitVec 32) (start : Word) (s : Race calls) : Prop where
  word : (s.word = start ∧ ∀ i, ¬ IsReturned (s.phase i))
    ∨ ((get_epoch s.word).toNat = epoch.toNat
      ∧ ∀ w, Least (s.Returned w) (field w s.word))
  loaded : ∀ i old new, s.phase i = .loaded old new → Round (calls.get i) epoch old new true

@[simp]
theorem move_phase_self (p : Phase) : (s.move i p).phase i = p := by
  simp [move]

theorem move_phase_of_ne {j : Fin calls.length} (hj : j ≠ i) (p : Phase) :
    (s.move i p).phase j = s.phase j := by
  simp [move, hj]

theorem returned_move (p : Phase) (hp : ¬ IsReturned p) (hi : ¬ IsReturned (s.phase i)) (w : Bool)
    (t : Nat) : (s.move i p).Returned w t ↔ s.Returned w t := by
  have hphase : ∀ j, IsReturned ((s.move i p).phase j) ↔ IsReturned (s.phase j) := by
    intro j
    by_cases hj : j = i
    · subst hj
      simp [hp, hi]
    · rw [move_phase_of_ne hj]
  simp only [Returned, hphase]

theorem returned_move_returned (result : Bool) (w : Bool) (t : Nat) :
    (s.move i (.returned result)).Returned w t
      ↔ s.Returned w t ∨ ((calls.get i).is_write = w ∧ (calls.get i).tid.toNat = t) := by
  constructor
  · rintro ⟨j, hj, hw, ht⟩
    by_cases hij : j = i
    · subst hij
      exact .inr ⟨hw, ht⟩
    · rw [move_phase_of_ne hij] at hj
      exact .inl ⟨j, hj, hw, ht⟩
  · rintro (⟨j, hj, hw, ht⟩ | ⟨hw, ht⟩)
    · refine ⟨j, ?_, hw, ht⟩
      by_cases hij : j = i
      · subst hij
        exact ⟨result, move_phase_self _⟩
      · rwa [move_phase_of_ne hij]
    · exact ⟨i, ⟨result, move_phase_self _⟩, hw, ht⟩

theorem summary_return {result : Bool} {word : Word}
    (hstart : (get_epoch start).toNat < epoch.toNat) (h : Summary epoch start s)
    (hround : Round (calls.get i) epoch s.word word result) (w : Bool) :
    (get_epoch word).toNat = epoch.toNat
      ∧ Least ((s.move i (.returned result)).Returned w) (field w word) := by
  have hpos := (calls.get i).tid_pos
  -- nothing has returned while the word is of an older epoch
  have hleast : (get_epoch s.word).toNat = epoch.toNat →
      ∀ w, Least (s.Returned w) (field w s.word) := by
    intro hsame
    rcases h.word with ⟨hword, -⟩ | ⟨-, hleast⟩
    · rw [hword] at hsame
      omega
    · exact hleast
  have hself : ∀ u, (s.move i (.returned result)).Returned (calls.get i).is_write u
      ↔ s.Returned (calls.get i).is_write u ∨ u = (calls.get i).tid.toNat := by
    intro u
    rw [returned_move_returned]
    simp [eq_comm]
  have hrest : ∀ u, (s.move i (.returned result)).Returned (!(calls.get i).is_write) u
      ↔ s.Returned (!(calls.get i).is_write) u := by
    intro u
    rw [returned_move_returned]
    simp
  cases hround with
  | renew hold he hfield hother =>
    have hnone : ∀ w u, ¬ s.Returned w u := by
      rintro w u ⟨j, hj, -⟩
      rcases h.word with ⟨-, hnone⟩ | ⟨hsame, -⟩
      · exact hnone j hj
      · omega
    refine ⟨he, ?_⟩
    by_cases hw : w = (calls.get i).is_write
    · subst hw
      rw [hfield]
      exact Least.lower (.inl ⟨rfl, hnone _⟩) hpos (.inl rfl) hself
    · obtain rfl := Bool.eq_not_of_ne hw
      rw [hother]
      exact Least.congr (.inl ⟨rfl, hnone _⟩) hrest
  | lower hold he hfield hother hle =>
    refine ⟨he, ?_⟩
    by_cases hw : w = (calls.get i).is_write
    · subst hw
      rw [hfield]
      exact (hleast hold _).lower hpos hle hself
    · obtain rfl := Bool.eq_not_of_ne hw
      rw [hother]
      exact (hleast hold _).congr hrest
  | keep hold hne hlt =>
    refine ⟨hold, ?_⟩
    by_cases hw : w = (calls.get i).is_write
    · subst hw
      exact (hleast hold _).keep hne (by omega) hself
    · obtain rfl := Bool.eq_not_of_ne hw
      exact (hleast hold _).congr hrest

theorem loaded_move (h : Summary epoch start s) {p : Phase}
    (hp : ∀ old new, p = .loaded old new → Round (calls.get i) epoch old new true) :
    ∀ j old new, (s.move i p).phase j = .loaded old new →
      Round (calls.get j) epoch old new true := by
  intro j old new hj
  by_cases hij : j = i
  · subst hij
    rw [move_phase_self] at hj
    exact hp old new hj
  · rw [move_phase_of_ne hij] at hj
    exact h.loaded j old new hj

theorem Summary.move (h : Summary epoch start s) {p : Phase} (hi : ¬ IsReturned (s.phase i))
    (hp : ¬ IsReturned p)
    (hloaded : ∀ old new, p = .loaded old new → Round (calls.get i) epoch old new true) :
    Summary epoch start (s.move i p) where
  word := by
    rcases h.word with ⟨hword, hnone⟩ | ⟨he, hleast⟩
    · left
      refine ⟨hword, ?_⟩
      intro j
      by_cases hij : j = i
      · subst hij
        rwa [move_phase_self]
      · rw [move_phase_of_ne hij]
        exact hnone j
    · right
      exact ⟨he, fun w => (hleast w).congr (returned_move p hp hi w)⟩
  loaded := loaded_move h hloaded

section

variable (hepoch : epoch.toNat < 2 ^ 24) (hstart : (get_epoch start).toNat < epoch.toNat)

include hepoch hstart

theorem summary_step (h : Summary epoch start s) {l : Label calls}
    (hstep : step epoch s l = some s') : Summary epoch start s' := by
  cases l with
  | load i =>
    simp only [step] at hstep
    split at hstep
    case h_2 => cases hstep
    case h_1 hphase =>
    have hi : ¬ IsReturned (s.phase i) := by simp [IsReturned, hphase]
    obtain ⟨⟨word, ok⟩, hres, hs'⟩ := Option.map_eq_some_iff.mp hstep
    have hround := Call.round hepoch hres
    cases ok with
    | false =>
      have hword : word = s.word := by cases hround; rfl
      subst hword
      subst hs'
      exact ⟨.inr ⟨(summary_return hstart h hround true).1,
        fun w => (summary_return hstart h hround w).2⟩, loaded_move h (by simp)⟩
    | true =>
      subst hs'
      refine h.move hi (by simp [IsReturned]) ?_
      rintro old new heq
      cases heq
      exact hround
  | compare_exchange_weak i spurious =>
    simp only [step] at hstep
    split at hstep
    case h_2 => cases hstep
    case h_1 old new hphase =>
    have hi : ¬ IsReturned (s.phase i) := by simp [IsReturned, hphase]
    split at hstep
    case isTrue hcas =>
      obtain ⟨hword, -⟩ := hcas
      cases hstep
      have hround := h.loaded i old new hphase
      rw [← hword] at hround
      exact ⟨.inr ⟨(summary_return hstart h hround true).1,
        fun w => (summary_return hstart h hround w).2⟩, loaded_move h (by simp)⟩
    case isFalse =>
      cases hstep
      exact h.move hi (by simp [IsReturned]) (by simp)

theorem summary_of_reach (hreach : Reach (step epoch) (fun _ _ => True) (init start) s) :
    Summary epoch start s := by
  refine hreach.invariant (P := Summary epoch start) ?_ ?_
  · exact ⟨.inl ⟨rfl, by simp [init, IsReturned]⟩, by simp [init]⟩
  · intro s l s' hs _ hstep
    exact summary_step hepoch hstart hs hstep

theorem exists_load (hreach : Reach (step epoch) (fun _ _ => True) (init start) s)
    (hi : s.phase i = .start) : ∃ s', step epoch s (.load i) = some s' := by
  have hold : (get_epoch s.word).toNat ≤ epoch.toNat := by
    rcases (summary_of_reach hepoch hstart hreach).word with ⟨hword, -⟩ | ⟨hsame, -⟩
    · rw [hword]
      omega
    · omega
  obtain ⟨word, ok, hres⟩ := Call.exists_reserve hold (c := calls.get i)
  simp only [step, hi, hres]
  cases ok <;> exact ⟨_, rfl⟩

end

def tids (calls : List Call) (is_write : Bool) : List Nat :=
  (calls.filter (·.is_write == is_write)).map (·.tid.toNat)

theorem returned_iff_mem_tids (hdone : ∀ i, IsReturned (s.phase i)) (w : Bool) (t : Nat) :
    t ∈ tids calls w ↔ s.Returned w t := by
  simp only [tids, mem_map, mem_filter, beq_iff_eq]
  constructor
  · rintro ⟨c, ⟨hc, hw⟩, ht⟩
    obtain ⟨i, rfl⟩ := get_of_mem hc
    exact ⟨i, hdone i, hw, ht⟩
  · rintro ⟨i, -, hw, ht⟩
    exact ⟨calls.get i, ⟨get_mem calls i, hw⟩, ht⟩

theorem reservation_outcome (calls : List Call) (hcalls : calls ≠ []) (epoch : BitVec 32)
    (hepoch : epoch.toNat < 2 ^ 24) (start : Word)
    (hstart : (get_epoch start).toNat < epoch.toNat) (s : Race calls)
    (hreach : Reach (step epoch) (fun _ _ => True) (init start) s)
    (hdone : ∀ i, ∃ result, s.phase i = .returned result) :
    (get_epoch s.word).toNat = epoch.toNat
      ∧ (get_rts s.word).toNat = (tids calls false).min?.getD 0
      ∧ (get_wts s.word).toNat = (tids calls true).min?.getD 0 := by
  have hpos : 0 < calls.length := length_pos_iff.mpr hcalls
  rcases (summary_of_reach hepoch hstart hreach).word with ⟨-, hnone⟩ | ⟨he, hleast⟩
  · exact absurd (hdone ⟨0, hpos⟩) (hnone ⟨0, hpos⟩)
  · refine ⟨he, ?_, ?_⟩
    · exact Least.min? ((hleast false).congr (returned_iff_mem_tids hdone false))
    · exact Least.min? ((hleast true).congr (returned_iff_mem_tids hdone true))

-- Two reads and a write in epoch 1: the second read overtakes the other two between
-- their load and their CAS.
def threeCalls : List Call :=
  [⟨false, 2, by decide, by decide⟩, ⟨true, 3, by decide, by decide⟩,
    ⟨false, 1, by decide, by decide⟩]

def overtaking : List (Label threeCalls) :=
  let i (k : Fin 3) : Fin threeCalls.length := k
  [.load (i 0), .load (i 1), .load (i 2), .compare_exchange_weak (i 2) false,
    .compare_exchange_weak (i 0) false, .compare_exchange_weak (i 1) false, .load (i 0),
    .load (i 1), .compare_exchange_weak (i 1) true, .load (i 1),
    .compare_exchange_weak (i 1) false]

theorem reservation_outcome_overtaking :
    ∃ s : Race threeCalls, Reach (step 1) (fun _ _ => True) (init 0) s
      ∧ (get_epoch s.word).toNat = 1 ∧ (get_rts s.word).toNat = 1
      ∧ (get_wts s.word).toNat = 3 := by
  obtain ⟨s, hreach, hdone⟩ := exists_reach_of_run (step 1) (fun _ _ => True) (init 0) overtaking
    (fun s => ∀ i, ∃ result, s.phase i = .returned result) (by decide +kernel)
  have hout := reservation_outcome threeCalls (by decide) 1 (by decide) 0 (by decide) s hreach hdone
  exact ⟨s, hreach, hout⟩

theorem exists_load_overtaken :
    ∃ s s' : Race threeCalls, Reach (step 1) (fun _ _ => True) (init 0) s
      ∧ (get_epoch s.word).toNat = 1 ∧ step 1 s (.load ⟨0, by decide⟩) = some s' := by
  obtain ⟨s, hreach, hepoch, hphase⟩ := exists_reach_of_run (step 1) (fun _ _ => True) (init 0)
    (overtaking.take 5) (fun s => (get_epoch s.word).toNat = 1 ∧ s.phase ⟨0, by decide⟩ = .start)
    (by decide +kernel)
  obtain ⟨s', hload⟩ := exists_load (by decide) (by decide) hreach hphase
  exact ⟨s, s', hreach, hepoch, hload⟩

end Race

end Tigon.Aria
