import Mathlib.Data.List.Basic
import Mathlib.Order.Lattice

namespace Tigon.Library

open List

section Bounds

variable {K : Type} [LinearOrder K]

-- The keys above a lower bound, none being no bound, and those up to and below an upper one.
def Over (lo : Option K) (k : K) : Prop := ∀ l ∈ lo, l < k

def UpTo (hi : Option K) (k : K) : Prop := ∀ u ∈ hi, k ≤ u

def Under (hi : Option K) (k : K) : Prop := ∀ u ∈ hi, k < u

theorem over_none (k : K) : Over none k := nofun

theorem upTo_none (k : K) : UpTo none k := nofun

theorem under_none (k : K) : Under none k := nofun

@[simp] theorem over_some {l k : K} : Over (some l) k ↔ l < k := by simp [Over]

@[simp] theorem upTo_some {u k : K} : UpTo (some u) k ↔ k ≤ u := by simp [UpTo]

@[simp] theorem under_some {u k : K} : Under (some u) k ↔ k < u := by simp [Under]

variable {k m : K}

theorem Over.trans {lo : Option K} (h : Over lo k) (hle : k ≤ m) : Over lo m :=
  fun l hl => lt_of_lt_of_le (h l hl) hle

theorem UpTo.trans {hi : Option K} (h : UpTo hi m) (hle : k ≤ m) : UpTo hi k :=
  fun u hu => le_trans hle (h u hu)

theorem Under.trans {hi : Option K} (h : Under hi m) (hle : k ≤ m) : Under hi k :=
  fun u hu => lt_of_le_of_lt hle (h u hu)

theorem UpTo.under {hi : Option K} (h : UpTo hi m) (hlt : k < m) : Under hi k :=
  fun u hu => lt_of_lt_of_le hlt (h u hu)

theorem Under.upTo {hi : Option K} (h : Under hi k) : UpTo hi k :=
  fun u hu => le_of_lt (h u hu)

end Bounds

variable {K C E : Type} [LinearOrder K]

-- Members in a row with a key between each two: `P` holds of each member with the bounds
-- that the keys next to it are.
def Separated (P : Option K → Option K → C → Prop) :
    Option K → List K → List C → Option K → Prop
  | lo, [], [c], hi => P lo hi c
  | lo, k :: ks, c :: cs, hi => Over lo k ∧ Under hi k ∧ P lo (some k) c ∧
      Separated P (some k) ks cs hi
  | _, _, _, _ => False

namespace Separated

variable {P : Option K → Option K → C → Prop} {lo hi : Option K} {ks : List K} {cs : List C}

theorem length_eq (h : Separated P lo ks cs hi) : cs.length = ks.length + 1 := by
  induction ks generalizing lo cs with
  | nil =>
    match cs, h with
    | [c], _ => rfl
  | cons k ks ih =>
    match cs, h with
    | c :: cs, h => rw [length_cons, ih h.2.2.2, length_cons]

variable {k : K}

theorem mem_over_under (h : Separated P lo ks cs hi) (hk : k ∈ ks) : Over lo k ∧ Under hi k := by
  induction ks generalizing lo cs with
  | nil => cases hk
  | cons m ks ih =>
    match cs, h with
    | c :: cs, ⟨hlo, hhi, _, hrest⟩ =>
      rcases mem_cons.mp hk with rfl | hk
      · exact ⟨hlo, hhi⟩
      · obtain ⟨hover, hunder⟩ := ih hrest hk
        exact ⟨hlo.trans (le_of_lt (over_some.mp hover)), hunder⟩

theorem sorted (h : Separated P lo ks cs hi) : ks.Pairwise (· < ·) := by
  induction ks generalizing lo cs with
  | nil => exact .nil
  | cons k ks ih =>
    match cs, h with
    | c :: cs, ⟨_, _, _, hrest⟩ =>
      exact .cons (fun m hm => over_some.mp (mem_over_under hrest hm).1) (ih hrest)

variable {c : C}

theorem exists_bounds (h : Separated P lo ks cs hi) (hc : c ∈ cs) : ∃ lo' hi', P lo' hi' c := by
  induction ks generalizing lo cs with
  | nil =>
    match cs, h with
    | [d], h => exact ⟨lo, hi, mem_singleton.mp hc ▸ h⟩
  | cons k ks ih =>
    match cs, h with
    | d :: cs, ⟨_, _, hd, hrest⟩ =>
      rcases mem_cons.mp hc with rfl | hc
      · exact ⟨lo, some k, hd⟩
      · exact ih hrest hc

theorem mono_left {lo' : Option K} (h : Separated P lo ks cs hi)
    (hlo : ∀ k, Over lo k → Over lo' k) (hP : ∀ hi c, P lo hi c → P lo' hi c) :
    Separated P lo' ks cs hi := by
  match ks, cs, h with
  | [], [c], h => exact hP hi c h
  | k :: ks, c :: cs, ⟨hover, hunder, hc, hrest⟩ =>
    exact ⟨hlo k hover, hunder, hP _ c hc, hrest⟩

theorem of_concat (h : Separated P lo ks (cs ++ [c]) hi) :
    ∃ lo', P lo' hi c ∧ (∀ k, Over lo' k → Over lo k ∧ ∀ x ∈ ks, x < k) ∧
      ∀ hi', P lo' hi' c → (∀ x ∈ ks, Under hi' x) → Separated P lo ks (cs ++ [c]) hi' := by
  induction ks generalizing lo cs with
  | nil =>
    have hcs : cs = [] := by
      have hlength := h.length_eq
      rw [length_append, length_singleton, length_nil] at hlength
      exact length_eq_zero_iff.mp (by omega)
    subst hcs
    exact ⟨lo, h, fun k hk => ⟨hk, forall_mem_nil _⟩, fun hi' hc _ => hc⟩
  | cons x ks ih =>
    cases cs with
    | nil =>
      have hlength := h.length_eq
      simp at hlength
    | cons d cs =>
      obtain ⟨hlo, -, hd, hrest⟩ := h
      obtain ⟨lo', hc, hover, hplug⟩ := ih hrest
      refine ⟨lo', hc, fun k hk => ?_, fun hi' hc' hunder => ?_⟩
      · obtain ⟨hx, hks⟩ := hover k hk
        have hlt : x < k := over_some.mp hx
        exact ⟨hlo.trans (le_of_lt hlt), forall_mem_cons.mpr ⟨hlt, hks⟩⟩
      · obtain ⟨hx, hks⟩ := forall_mem_cons.mp hunder
        exact ⟨hlo, hx, hd, hplug hi' hc' hks⟩

theorem append {ks' : List K} {cs' : List C} (h : Separated P lo ks cs (some k)) (hlo : Over lo k)
    (hhi : Under hi k) (h' : Separated P (some k) ks' cs' hi) :
    Separated P lo (ks ++ k :: ks') (cs ++ cs') hi := by
  induction ks generalizing lo cs with
  | nil =>
    match cs, h with
    | [c], h => exact ⟨hlo, hhi, h, h'⟩
  | cons m ks ih =>
    match cs, h with
    | c :: cs, ⟨hlo', hhi', hc, hrest⟩ =>
      have hm : m < k := under_some.mp hhi'
      exact ⟨hlo', hhi.trans (le_of_lt hm), hc, ih hrest (over_some.mpr hm)⟩

theorem of_append {ks' : List K} {cs' : List C} (h : Separated P lo (ks ++ k :: ks') (cs ++ cs') hi)
    (hlength : cs.length = ks.length + 1) :
    Separated P lo ks cs (some k) ∧ Over lo k ∧ Under hi k ∧ Separated P (some k) ks' cs' hi := by
  induction ks generalizing lo cs with
  | nil =>
    match cs, hlength with
    | [c], _ =>
      obtain ⟨hlo, hhi, hc, hrest⟩ := h
      exact ⟨hc, hlo, hhi, hrest⟩
  | cons m ks ih =>
    match cs, hlength with
    | c :: cs, hlength =>
      obtain ⟨hlo, hhi, hc, hrest⟩ := h
      obtain ⟨hleft, hmk, hk, hright⟩ := ih hrest (Nat.succ.inj hlength)
      have hlt : m < k := over_some.mp hmk
      exact ⟨⟨hlo, under_some.mpr hlt, hc, hleft⟩, hlo.trans (le_of_lt hlt), hk, hright⟩

-- A piece of a row is a row between bounds of its own, and any other row between these
-- bounds may take its place.
theorem segment {ks₁ ks₂ ts : List K} {cs₁ cs₂ ms : List C}
    (h : Separated P lo (ks₁ ++ ts ++ ks₂) (cs₁ ++ ms ++ cs₂) hi) (h₁ : cs₁.length = ks₁.length)
    (hms : ms.length = ts.length + 1) :
    ∃ lo' hi', Separated P lo' ts ms hi' ∧
      (∀ k, Over lo k → (∀ x ∈ ks₁, x < k) → Over lo' k) ∧
      (∀ k, UpTo hi k → (∀ x ∈ ks₂, k ≤ x) → UpTo hi' k) ∧
      (∀ k, Over lo' k → Over lo k ∧ ∀ x ∈ ks₁, x < k) ∧
      (∀ k, UpTo hi' k → UpTo hi k ∧ ∀ x ∈ ks₂, k ≤ x) ∧
      ∀ ts' ms', Separated P lo' ts' ms' hi' →
        Separated P lo (ks₁ ++ ts' ++ ks₂) (cs₁ ++ ms' ++ cs₂) hi := by
  induction ks₁ generalizing lo cs₁ with
  | nil =>
    obtain rfl := length_eq_zero_iff.mp h₁
    cases ks₂ with
    | nil =>
      have hcs₂ : cs₂ = [] := by
        have hlength := h.length_eq
        simp only [append_nil, nil_append, length_append] at hlength
        exact length_eq_zero_iff.mp (by omega)
      subst hcs₂
      simp only [append_nil, nil_append] at h ⊢
      refine ⟨lo, hi, h, fun k hk _ => hk, fun k hk _ => hk, ?_, ?_, fun _ _ h' => h'⟩
      · exact fun k hk => ⟨hk, forall_mem_nil _⟩
      · exact fun k hk => ⟨hk, forall_mem_nil _⟩
    | cons k ks₂ =>
      obtain ⟨hms', hlo, hhi, hrest⟩ := of_append h hms
      refine ⟨lo, some k, hms', fun m hm _ => hm, ?_, ?_, ?_, ?_⟩
      · exact fun m _ hm => upTo_some.mpr (hm k mem_cons_self)
      · exact fun m hm => ⟨hm, forall_mem_nil _⟩
      · intro m hm
        have hle : m ≤ k := upTo_some.mp hm
        refine ⟨hhi.upTo.trans hle, forall_mem_cons.mpr ⟨hle, fun x hx => ?_⟩⟩
        exact le_trans hle (le_of_lt (over_some.mp (hrest.mem_over_under hx).1))
      · exact fun ts' ms' h' => h'.append hlo hhi hrest
  | cons x ks₁ ih =>
    match cs₁, h₁ with
    | c :: cs₁, h₁ =>
      obtain ⟨hlo, hhi, hc, hrest⟩ := h
      obtain ⟨lo', hi', hseg, hover, hupTo, hover', hupTo', hplug⟩ := ih hrest (Nat.succ.inj h₁)
      refine ⟨lo', hi', hseg, ?_, hupTo, ?_, hupTo', ?_⟩
      · intro k _ hk
        obtain ⟨hx, hk⟩ := forall_mem_cons.mp hk
        exact hover k (over_some.mpr hx) hk
      · intro k hk
        obtain ⟨hx, hks⟩ := hover' k hk
        have hlt : x < k := over_some.mp hx
        exact ⟨hlo.trans (le_of_lt hlt), forall_mem_cons.mpr ⟨hlt, hks⟩⟩
      · exact fun ts' ms' h' => ⟨hlo, hhi, hc, hplug ts' ms' h'⟩

variable {f : C → List E}

theorem entries_sorted {key : E → K}
    (hP : ∀ lo hi c, P lo hi c → (f c).Pairwise (fun a b => key a < key b) ∧
      ∀ e ∈ f c, Over lo (key e) ∧ UpTo hi (key e))
    (h : Separated P lo ks cs hi) :
    (cs.flatMap f).Pairwise (fun a b => key a < key b) ∧
      ∀ e ∈ cs.flatMap f, Over lo (key e) ∧ UpTo hi (key e) := by
  induction ks generalizing lo cs with
  | nil =>
    match cs, h with
    | [c], h =>
      rw [flatMap_singleton]
      exact hP lo hi c h
  | cons k ks ih =>
    match cs, h with
    | c :: cs, ⟨hlo, hhi, hc, hrest⟩ =>
      obtain ⟨hsorted, hbounds⟩ := hP _ _ _ hc
      obtain ⟨hsorted', hbounds'⟩ := ih hrest
      rw [flatMap_cons]
      constructor
      · refine pairwise_append.mpr ⟨hsorted, hsorted', fun a ha b hb => ?_⟩
        exact lt_of_le_of_lt (upTo_some.mp (hbounds a ha).2) (over_some.mp (hbounds' b hb).1)
      · intro e he
        rcases mem_append.mp he with he | he
        · obtain ⟨hover, hupTo⟩ := hbounds e he
          exact ⟨hover, (hhi.trans (upTo_some.mp hupTo)).upTo⟩
        · obtain ⟨hover, hupTo⟩ := hbounds' e he
          exact ⟨hlo.trans (le_of_lt (over_some.mp hover)), hupTo⟩

theorem exists_head (h : Separated P lo ks (c :: cs) hi) : ∃ hi', P lo hi' c := by
  cases ks with
  | nil =>
    match cs, h with
    | [], h => exact ⟨hi, h⟩
  | cons k ks => exact ⟨some k, h.2.2.1⟩

theorem entries_behind {key : E → K}
    (hP : ∀ lo hi c, P lo hi c → ∀ e ∈ f c, Over lo (key e) ∧ UpTo hi (key e))
    (h : Separated P lo ks (c :: cs) hi) : ∀ e ∈ cs.flatMap f, ∃ x ∈ ks, x < key e := by
  induction ks generalizing lo c cs with
  | nil =>
    match cs, h with
    | [], _ => exact fun e he => absurd he not_mem_nil
  | cons x ks ih =>
    obtain ⟨-, -, -, hrest⟩ := h
    cases cs with
    | nil => exact fun e he => absurd he not_mem_nil
    | cons d cs =>
      intro e he
      rw [flatMap_cons] at he
      rcases mem_append.mp he with he | he
      · obtain ⟨hi', hd⟩ := hrest.exists_head
        exact ⟨x, mem_cons_self, over_some.mp (hP _ _ _ hd e he).1⟩
      · obtain ⟨y, hy, hlt⟩ := ih hrest e he
        exact ⟨y, mem_cons_of_mem x hy, hlt⟩

-- What stands in front of a member is at most a key in front of it, and what stands behind it
-- is above a key behind it.
theorem entries_around (key : E → K)
    (hP : ∀ lo hi c, P lo hi c → ∀ e ∈ f c, Over lo (key e) ∧ UpTo hi (key e)) {ks₁ ks₂ : List K}
    {cs₁ cs₂ : List C} (h : Separated P lo (ks₁ ++ ks₂) (cs₁ ++ c :: cs₂) hi)
    (h₁ : cs₁.length = ks₁.length) :
    (∀ e ∈ cs₁.flatMap f, ∃ x ∈ ks₁, key e ≤ x) ∧ ∀ e ∈ cs₂.flatMap f, ∃ x ∈ ks₂, x < key e := by
  induction ks₁ generalizing lo cs₁ with
  | nil =>
    obtain rfl := length_eq_zero_iff.mp h₁
    exact ⟨fun e he => absurd he not_mem_nil, h.entries_behind hP⟩
  | cons x ks₁ ih =>
    match cs₁, h₁ with
    | d :: cs₁, h₁ =>
      obtain ⟨-, -, hd, hrest⟩ := h
      obtain ⟨hbefore, hbehind⟩ := ih hrest (Nat.succ.inj h₁)
      refine ⟨fun e he => ?_, hbehind⟩
      rw [flatMap_cons] at he
      rcases mem_append.mp he with he | he
      · exact ⟨x, mem_cons_self, upTo_some.mp (hP _ _ _ hd e he).2⟩
      · obtain ⟨y, hy, hle⟩ := hbefore e he
        exact ⟨y, mem_cons_of_mem x hy, hle⟩

end Separated

end Tigon.Library
