import Tigon.Aria.Batch
import Tigon.Library.BitField

namespace Tigon.Aria

open Function List Tigon.Library

namespace AriaHelper

section Fields

variable (off len off' len' : Nat) (hw : off + len ≤ 64) (hw' : off' + len' ≤ 64)

theorem toNat_getField (hlen : len ≤ 64) (value : Word) :
    (getField off (BitVec.ofNat 64 (2 ^ len - 1)) value).toNat = bitField off len value :=
  toNat_shift_mask value hlen

include hw in
theorem getField_setField (value : Word) {field : Word} (hfield : field.toNat < 2 ^ len) :
    getField off (BitVec.ofNat 64 (2 ^ len - 1))
      (setField off (BitVec.ofNat 64 (2 ^ len - 1)) value field) = field := by
  apply BitVec.eq_of_toNat_eq
  have hset := (field_set (x := value) hw hfield).1
  rw [BitVec.ofNat_toNat, BitVec.setWidth_eq] at hset
  rw [toNat_getField _ _ (by omega)]
  exact hset

include hw hw' in
theorem getField_setField_of_apart (value : Word) {field : Word} (hfield : field.toNat < 2 ^ len)
    (hapart : off' + len' ≤ off ∨ off + len ≤ off') :
    getField off' (BitVec.ofNat 64 (2 ^ len' - 1))
        (setField off (BitVec.ofNat 64 (2 ^ len - 1)) value field)
      = getField off' (BitVec.ofNat 64 (2 ^ len' - 1)) value := by
  apply BitVec.eq_of_toNat_eq
  have hset := (field_set (x := value) hw hfield).2
  rw [BitVec.ofNat_toNat, BitVec.setWidth_eq] at hset
  rw [toNat_getField _ _ (by omega), toNat_getField _ _ (by omega)]
  refine bitField_congr fun i hi => hset _ ?_
  omega

end Fields

structure Slot (get : Word → Word) (set : Word → Word → Word) : Prop where
  self : ∀ value field, field.toNat < 2 ^ 20 → get (set value field) = field
  epoch : ∀ value field, field.toNat < 2 ^ 20 → get_epoch (set value field) = get_epoch value

theorem slot_rts : Slot get_rts set_rts where
  self := fun value _ h => getField_setField 20 20 (by omega) value h
  epoch := fun value _ h => getField_setField_of_apart 20 20 40 24 (by omega) (by omega) value h
    (by omega)

theorem slot_wts : Slot get_wts set_wts where
  self := fun value _ h => getField_setField 0 20 (by omega) value h
  epoch := fun value _ h => getField_setField_of_apart 0 20 40 24 (by omega) (by omega) value h
    (by omega)

theorem get_wts_set_rts (value : Word) {field : Word} (h : field.toNat < 2 ^ 20) :
    get_wts (set_rts value field) = get_wts value :=
  getField_setField_of_apart 20 20 0 20 (by omega) (by omega) value h (by omega)

theorem get_rts_set_wts (value : Word) {field : Word} (h : field.toNat < 2 ^ 20) :
    get_rts (set_wts value field) = get_rts value :=
  getField_setField_of_apart 0 20 20 20 (by omega) (by omega) value h (by omega)

theorem get_epoch_set_epoch (value : Word) {epoch : Word} (h : epoch.toNat < 2 ^ 24) :
    get_epoch (set_epoch value epoch) = epoch :=
  getField_setField 40 24 (by omega) value h

theorem reserve_spec {get get' : Word → Word} {set : Word → Word → Word} (hslot : Slot get set)
    (hother : ∀ value field, field.toNat < 2 ^ 20 → get' (set value field) = get' value)
    {a : Word} {epoch tid : BitVec 32} (hepoch : epoch.toNat < 2 ^ 24) (htid : tid.toNat < 2 ^ 20)
    (hpos : 0 < tid.toNat) (hold : (get_epoch a).toNat ≤ epoch.toNat) :
    ∃ a' ok, reserve get set a epoch tid = some (a', ok) ∧ get_epoch a' = epoch.setWidth 64 ∧
      0 < (get a').toNat ∧ (get a').toNat ≤ tid.toNat ∧
      (get_epoch a = epoch.setWidth 64 →
        (0 < (get a).toNat → (get a').toNat ≤ (get a).toNat) ∧ get' a' = get' a) := by
  have hwide : (epoch.setWidth 64).toNat = epoch.toNat := BitVec.toNat_setWidth_of_le (by omega)
  have htide : (tid.setWidth 64).toNat = tid.toNat := BitVec.toNat_setWidth_of_le (by omega)
  have hfield : (tid.setWidth 64).toNat < 2 ^ 20 := by omega
  have hnone : ¬ epoch.setWidth 64 < get_epoch a := by
    rw [BitVec.lt_def, hwide]
    omega
  unfold reserve
  simp only [if_neg hnone]
  by_cases hnew : get_epoch a < epoch.setWidth 64
  · rw [if_pos hnew]
    refine ⟨_, true, rfl, ?_, ?_, ?_, ?_⟩
    · rw [hslot.epoch _ _ hfield]
      exact get_epoch_set_epoch _ (by omega)
    · rw [hslot.self _ _ hfield]
      omega
    · rw [hslot.self _ _ hfield]
      omega
    · intro hsame
      rw [hsame] at hnew
      exact absurd hnew (BitVec.lt_irrefl _)
  · rw [if_neg hnew]
    have hsame : get_epoch a = epoch.setWidth 64 := by
      apply BitVec.eq_of_toNat_eq
      rw [BitVec.lt_def, hwide] at hnew
      omega
    by_cases hkeep : get a < tid.setWidth 64 ∧ get a ≠ 0
    · rw [if_pos hkeep]
      have hlt := BitVec.lt_def.mp hkeep.1
      have hne : (get a).toNat ≠ 0 := fun hzero => hkeep.2 (BitVec.eq_of_toNat_eq hzero)
      exact ⟨a, false, rfl, hsame, by omega, by omega, fun _ => ⟨fun _ => le_refl _, rfl⟩⟩
    · rw [if_neg hkeep]
      refine ⟨_, true, rfl, ?_, ?_, ?_, fun _ => ⟨?_, hother _ _ hfield⟩⟩
      · rw [hslot.epoch _ _ hfield, hsame]
      · rw [hslot.self _ _ hfield]
        omega
      · rw [hslot.self _ _ hfield]
        omega
      · intro hposa
        rw [hslot.self _ _ hfield]
        by_contra hgt
        refine hkeep ⟨BitVec.lt_def.mpr (by omega), ?_⟩
        rintro hzero
        rw [hzero] at hposa
        exact absurd hposa (by decide)

end AriaHelper

open AriaHelper

namespace Batch

variable {κ α : Type} [DecidableEq κ] {b : Batch κ α}

def slot (is_write : Bool) : Word → Word := if is_write then get_wts else get_rts

-- The word of a row after a reservation: the epoch of the batch and the tid or a smaller one.
structure Holds (b : Batch κ α) (r : Reservation κ) (value : Word) : Prop where
  epoch : get_epoch value = b.epoch.setWidth 64
  pos : 0 < (slot r.is_write value).toNat
  le : (slot r.is_write value).toNat ≤ r.tid

variable {old metadata : κ → Word} {rs : List (Reservation κ)} {r : Reservation κ}

omit [DecidableEq κ] in
theorem Holds.keep {r' : Reservation κ} {a a' : Word} (h : b.Holds r' a)
    (hepoch : get_epoch a' = b.epoch.setWidth 64)
    (hmin : 0 < (slot r.is_write a).toNat →
      0 < (slot r.is_write a').toNat ∧ (slot r.is_write a').toNat ≤ (slot r.is_write a).toNat)
    (hother : slot (!r.is_write) a' = slot (!r.is_write) a) : b.Holds r' a' := by
  obtain ⟨-, hpos, hle⟩ := h
  by_cases hkind : r'.is_write = r.is_write
  · rw [hkind] at hpos hle
    obtain ⟨hpos', hle'⟩ := hmin hpos
    exact ⟨hepoch, hkind ▸ hpos', hkind ▸ hle'.trans hle⟩
  · rw [Bool.eq_not_of_ne hkind, ← hother] at hpos hle
    exact ⟨hepoch, Bool.eq_not_of_ne hkind ▸ hpos, Bool.eq_not_of_ne hkind ▸ hle⟩

theorem reserve_slot (hepoch : b.epoch.toNat < 2 ^ 24) (hpos : 0 < r.tid) (hlt : r.tid < 2 ^ 20)
    (hold : (get_epoch (metadata r.key)).toNat ≤ b.epoch.toNat) :
    ∃ a', b.reserve metadata r = some (update metadata r.key a') ∧ b.Holds r a' ∧
      ∀ r', b.Holds r' (metadata r.key) → b.Holds r' a' := by
  have htid : (BitVec.ofNat 32 r.tid).toNat = r.tid := by
    rw [BitVec.toNat_ofNat]
    omega
  obtain ⟨a', hres, hepoch', hpos', hle', hsame⟩ : ∃ a',
      b.reserve metadata r = some (update metadata r.key a') ∧
      get_epoch a' = b.epoch.setWidth 64 ∧ 0 < (slot r.is_write a').toNat ∧
      (slot r.is_write a').toNat ≤ r.tid ∧
      (get_epoch (metadata r.key) = b.epoch.setWidth 64 →
        (0 < (slot r.is_write (metadata r.key)).toNat →
          (slot r.is_write a').toNat ≤ (slot r.is_write (metadata r.key)).toNat) ∧
        slot (!r.is_write) a' = slot (!r.is_write) (metadata r.key)) := by
    cases hwrite : r.is_write with
    | true =>
      obtain ⟨a', ok, hres, hspec⟩ := reserve_spec slot_wts
        (fun value _ h => get_rts_set_wts value h) hepoch (htid.trans_lt hlt)
        (htid.symm ▸ hpos) hold
      rw [htid] at hspec
      refine ⟨a', ?_, hspec⟩
      simp only [Batch.reserve, hwrite, if_true, reserve_write, hres]
      rfl
    | false =>
      obtain ⟨a', ok, hres, hspec⟩ := reserve_spec slot_rts
        (fun value _ h => get_wts_set_rts value h) hepoch (htid.trans_lt hlt)
        (htid.symm ▸ hpos) hold
      rw [htid] at hspec
      refine ⟨a', ?_, hspec⟩
      simp only [Batch.reserve, hwrite, Bool.false_eq_true, if_false, reserve_read, hres]
      rfl
  refine ⟨a', hres, ⟨hepoch', hpos', hle'⟩, fun r' hr' => ?_⟩
  obtain ⟨hmin, hother⟩ := hsame hr'.epoch
  exact hr'.keep hepoch' (fun hpos => ⟨hpos', hmin hpos⟩) hother

structure Reserved (b : Batch κ α) (old : κ → Word) (rs : List (Reservation κ))
    (metadata : κ → Word) : Prop where
  untouched : ∀ k, (∀ r ∈ rs, r.key ≠ k) → metadata k = old k
  holds : ∀ r ∈ rs, b.Holds r (metadata r.key)

theorem Reserved.reserve (h : b.Reserved old rs metadata) (hepoch : b.epoch.toNat < 2 ^ 24)
    (hstale : ∀ k, (get_epoch (old k)).toNat < b.epoch.toNat) (hpos : 0 < r.tid)
    (hlt : r.tid < 2 ^ 20) :
    ∃ metadata', b.reserve metadata r = some metadata' ∧ b.Reserved old (rs ++ [r]) metadata' := by
  have hwide : (b.epoch.setWidth 64).toNat = b.epoch.toNat :=
    BitVec.toNat_setWidth_of_le (by omega)
  have hold : (get_epoch (metadata r.key)).toNat ≤ b.epoch.toNat := by
    by_cases hrow : ∀ r' ∈ rs, r'.key ≠ r.key
    · rw [h.untouched r.key hrow]
      exact le_of_lt (hstale r.key)
    · push Not at hrow
      obtain ⟨r', hr', hkey⟩ := hrow
      rw [← hkey, (h.holds r' hr').epoch, hwide]
  obtain ⟨a', hres, hself, hkeep⟩ := reserve_slot hepoch hpos hlt hold
  refine ⟨_, hres, ?_, ?_⟩
  · intro k hk
    have hne : k ≠ r.key := fun heq => hk r (by simp) heq.symm
    rw [update_of_ne hne]
    exact h.untouched k fun r' hr' => hk r' (mem_append_left _ hr')
  · intro r' hr'
    rcases mem_append.mp hr' with hr' | hr'
    · by_cases hkey : r'.key = r.key
      · rw [hkey, update_self]
        exact hkeep r' (hkey ▸ h.holds r' hr')
      · rw [update_of_ne hkey]
        exact h.holds r' hr'
    · rw [mem_singleton.mp hr', update_self]
      exact hself

theorem Reserved.reserveAll {rs' : List (Reservation κ)} (h : b.Reserved old rs metadata)
    (hepoch : b.epoch.toNat < 2 ^ 24) (hstale : ∀ k, (get_epoch (old k)).toNat < b.epoch.toNat)
    (htids : ∀ r ∈ rs', 0 < r.tid ∧ r.tid < 2 ^ 20) :
    ∃ metadata', b.reserveAll metadata rs' = some metadata' ∧
      b.Reserved old (rs ++ rs') metadata' := by
  induction rs' generalizing rs metadata with
  | nil => exact ⟨metadata, rfl, by rwa [append_nil]⟩
  | cons r rs' ih =>
    obtain ⟨⟨hpos, hlt⟩, htids⟩ := forall_mem_cons.mp htids
    obtain ⟨metadata₁, hres, h₁⟩ := h.reserve hepoch hstale hpos hlt
    obtain ⟨metadata', hall, h'⟩ := ih h₁ htids
    refine ⟨metadata', ?_, by rwa [append_assoc] at h'⟩
    rw [Batch.reserveAll, foldlM_cons, hres]
    exact hall

omit [DecidableEq κ] in
theorem Reserved.start (b : Batch κ α) (old : κ → Word) : b.Reserved old [] old :=
  ⟨fun _ _ => rfl, nofun⟩

end Batch

end Tigon.Aria
