import Mathlib.Algebra.Group.Nat.Defs
import Mathlib.Data.Prod.Lex

namespace Tigon.Benchmark.Tpcc

open BitVec

abbrev Int32 := BitVec 32

def DISTRICT_PER_WAREHOUSE : Int32 := 10
def CUSTOMER_PER_DISTRICT : Int32 := 3000
def MAX_ORDER_ID : Int32 := 0x7fffffff
def MAX_ORDER_LINE_PER_ORDER : Int32 := 15

-- The conversion of a signed operand of uint64_t arithmetic.
def u64 {w : Nat} (x : BitVec w) : BitVec 64 := x.signExtend 64

def districtKey (w_id d_id : Int32) : Int32 := w_id * (DISTRICT_PER_WAREHOUSE + 1) + d_id

def orderKey (w_id d_id o_id : Int32) : BitVec 64 :=
  u64 (districtKey w_id d_id) * u64 MAX_ORDER_ID + u64 o_id

structure new_order.key where
  NO_W_ID : Int32
  NO_D_ID : Int32
  NO_O_ID : Int32

structure order.key where
  O_W_ID : Int32
  O_D_ID : Int32
  O_ID : Int32

structure order_customer.key where
  O_W_ID : Int32
  O_D_ID : Int32
  O_C_ID : Int32
  O_ID : Int32

structure order_line.key where
  OL_W_ID : Int32
  OL_D_ID : Int32
  OL_O_ID : Int32
  OL_NUMBER : BitVec 8

def new_order.key.get_plain_key (k : new_order.key) : BitVec 64 :=
  orderKey k.NO_W_ID k.NO_D_ID k.NO_O_ID

def order.key.get_plain_key (k : order.key) : BitVec 64 := orderKey k.O_W_ID k.O_D_ID k.O_ID

def order_customer.key.get_plain_key (k : order_customer.key) : BitVec 64 :=
  u64 (districtKey k.O_W_ID k.O_D_ID * (CUSTOMER_PER_DISTRICT + 1) + k.O_C_ID) * u64 MAX_ORDER_ID
    + u64 k.O_ID

def order_line.key.get_plain_key (k : order_line.key) : BitVec 64 :=
  orderKey k.OL_W_ID k.OL_D_ID k.OL_O_ID * u64 (MAX_ORDER_LINE_PER_ORDER + 1) + u64 k.OL_NUMBER

def KeyComparator (a b : BitVec 64) : Int := if a > b then 1 else if a = b then 0 else -1

-- A scan from `min` to `max` goes to the key.
def selects (min max k : BitVec 64) : Prop := 0 ≤ KeyComparator k min ∧ KeyComparator k max ≤ 0

-- The bounds of Delivery.
def new_order.key.Delivered (w_id d_id : Int32) (k : new_order.key) : Prop :=
  selects (mk w_id d_id 0).get_plain_key (mk w_id d_id MAX_ORDER_ID).get_plain_key k.get_plain_key

def order_line.key.Delivered (w_id d_id o_id : Int32) (k : order_line.key) : Prop :=
  selects (mk w_id d_id o_id 1).get_plain_key
    (mk w_id d_id o_id (MAX_ORDER_LINE_PER_ORDER.setWidth 8)).get_plain_key k.get_plain_key

-- The ids of the schema. A negative one would have its highest bit set.
structure InRange (w_id d_id o_id : Int32) : Prop where
  w_id_pos : 1 ≤ w_id.toNat
  w_id_le : w_id.toNat ≤ 60000
  d_id_le : d_id.toNat ≤ 10
  o_id_pos : 1 ≤ o_id.toNat
  o_id_lt : o_id.toNat < 2 ^ 31 - 1

def new_order.key.InRange (k : new_order.key) : Prop := Tpcc.InRange k.NO_W_ID k.NO_D_ID k.NO_O_ID

def order.key.InRange (k : order.key) : Prop := Tpcc.InRange k.O_W_ID k.O_D_ID k.O_ID

def order_customer.key.InRange (k : order_customer.key) : Prop :=
  Tpcc.InRange k.O_W_ID k.O_D_ID k.O_ID ∧ k.O_C_ID.toNat ≤ 3000

def order_line.key.InRange (k : order_line.key) : Prop :=
  Tpcc.InRange k.OL_W_ID k.OL_D_ID k.OL_O_ID ∧ k.OL_NUMBER.toNat ≤ 15

def new_order.key.fields (k : new_order.key) : Nat ×ₗ Nat ×ₗ Nat :=
  toLex (k.NO_W_ID.toNat, toLex (k.NO_D_ID.toNat, k.NO_O_ID.toNat))

def order.key.fields (k : order.key) : Nat ×ₗ Nat ×ₗ Nat :=
  toLex (k.O_W_ID.toNat, toLex (k.O_D_ID.toNat, k.O_ID.toNat))

def order_customer.key.fields (k : order_customer.key) : Nat ×ₗ Nat ×ₗ Nat ×ₗ Nat :=
  toLex (k.O_W_ID.toNat, toLex (k.O_D_ID.toNat, toLex (k.O_C_ID.toNat, k.O_ID.toNat)))

def order_line.key.fields (k : order_line.key) : Nat ×ₗ Nat ×ₗ Nat ×ₗ Nat :=
  toLex (k.OL_W_ID.toNat, toLex (k.OL_D_ID.toNat, toLex (k.OL_O_ID.toNat, k.OL_NUMBER.toNat)))

structure Lexicographic {κ β : Type} [LinearOrder β] (plain : κ → BitVec 64) (fields : κ → β)
    (InRange : κ → Prop) : Prop where
  lt_iff : ∀ a b, InRange a → InRange b → (plain a < plain b ↔ fields a < fields b)
  comparator : ∀ a b, InRange a → InRange b →
    (KeyComparator (plain a) (plain b) = -1 ↔ fields a < fields b) ∧
    (KeyComparator (plain a) (plain b) = 0 ↔ a = b) ∧
    (KeyComparator (plain a) (plain b) = 1 ↔ fields b < fields a)

theorem keyComparator_iff (a b : BitVec 64) :
    (KeyComparator a b = -1 ↔ a < b) ∧ (KeyComparator a b = 0 ↔ a = b) ∧
      (KeyComparator a b = 1 ↔ b < a) := by
  simp only [KeyComparator, lt_def, gt_iff_lt, ← toNat_inj]
  split_ifs <;> simp <;> omega

theorem selects_iff {min max k : BitVec 64} :
    selects min max k ↔ min.toNat ≤ k.toNat ∧ k.toNat ≤ max.toNat := by
  simp only [selects, KeyComparator, lt_def, gt_iff_lt, ← toNat_inj]
  split_ifs <;> omega

theorem lexicographic_of_lt {κ β : Type} [LinearOrder β] {plain : κ → BitVec 64} {fields : κ → β}
    {InRange : κ → Prop} (hinj : Function.Injective fields)
    (hlt : ∀ a b, InRange a → InRange b → (plain a < plain b ↔ fields a < fields b)) :
    Lexicographic plain fields InRange := by
  refine ⟨hlt, fun a b ha hb => ?_⟩
  obtain ⟨hless, hequal, hgreater⟩ := keyComparator_iff (plain a) (plain b)
  refine ⟨hless.trans (hlt a b ha hb), hequal.trans ⟨fun heq => ?_, fun heq => heq ▸ rfl⟩,
    hgreater.trans (hlt b a hb ha)⟩
  refine hinj (le_antisymm (not_lt.mp fun h => ?_) (not_lt.mp fun h => ?_))
  · exact BitVec.lt_irrefl _ (heq ▸ (hlt b a hb ha).mpr h)
  · exact BitVec.lt_irrefl _ (heq ▸ (hlt a b ha hb).mpr h)

theorem toNat_u64 {w : Nat} {x : BitVec w} (hw : w ≤ 64) (hx : 2 * x.toNat < 2 ^ w) :
    (u64 x).toNat = x.toNat := by
  have hlt : x.toNat < 2 ^ 64 := lt_of_lt_of_le x.isLt (Nat.pow_le_pow_right Nat.two_pos hw)
  rw [u64, signExtend_eq_setWidth_of_msb_false (msb_eq_false_iff_two_mul_lt.mpr hx),
    toNat_setWidth, Nat.mod_eq_of_lt hlt]

section

variable {w_id d_id o_id : Int32} (hw : w_id.toNat ≤ 60000) (hd : d_id.toNat ≤ 10)

include hw hd

theorem toNat_districtKey : (districtKey w_id d_id).toNat = w_id.toNat * 11 + d_id.toNat := by
  rw [districtKey, DISTRICT_PER_WAREHOUSE, toNat_add, toNat_mul]
  have heleven : (10 + 1 : Int32).toNat = 11 := rfl
  rw [heleven]
  omega

theorem toNat_orderKey (ho : o_id.toNat < 2 ^ 31) :
    (orderKey w_id d_id o_id).toNat
      = (w_id.toNat * 11 + d_id.toNat) * 2147483647 + o_id.toNat := by
  have hdistrict := toNat_districtKey hw hd
  have hmax : (u64 MAX_ORDER_ID).toNat = 2147483647 := rfl
  rw [orderKey, toNat_add, toNat_mul, hmax, toNat_u64 (by decide) (by omega),
    toNat_u64 (by decide) (by omega), hdistrict]
  omega

end

theorem toNat_orderCustomer {k : order_customer.key} (h : k.InRange) :
    k.get_plain_key.toNat = ((k.O_W_ID.toNat * 11 + k.O_D_ID.toNat) * 3001 + k.O_C_ID.toNat)
      * 2147483647 + k.O_ID.toNat := by
  obtain ⟨⟨-, hw, hd, -, ho⟩, hc⟩ := h
  have hdistrict := toNat_districtKey hw hd
  have hmax : (u64 MAX_ORDER_ID).toNat = 2147483647 := rfl
  have hcustomers : (CUSTOMER_PER_DISTRICT + 1).toNat = 3001 := rfl
  have hcustomer : (districtKey k.O_W_ID k.O_D_ID * (CUSTOMER_PER_DISTRICT + 1) + k.O_C_ID).toNat
      = (k.O_W_ID.toNat * 11 + k.O_D_ID.toNat) * 3001 + k.O_C_ID.toNat := by
    rw [toNat_add, toNat_mul, hcustomers, hdistrict]
    omega
  rw [order_customer.key.get_plain_key, toNat_add, toNat_mul, hmax,
    toNat_u64 (by decide) (by omega), toNat_u64 (by decide) (by omega), hcustomer]
  omega

theorem toNat_orderLine {w_id d_id o_id : Int32} {number : BitVec 8} (hw : w_id.toNat ≤ 60000)
    (hd : d_id.toNat ≤ 10) (ho : o_id.toNat < 2 ^ 31) (hn : number.toNat ≤ 15) :
    (order_line.key.mk w_id d_id o_id number).get_plain_key.toNat
      = ((w_id.toNat * 11 + d_id.toNat) * 2147483647 + o_id.toNat) * 16 + number.toNat := by
  have hlines : (u64 (MAX_ORDER_LINE_PER_ORDER + 1)).toNat = 16 := rfl
  change (orderKey w_id d_id o_id * u64 (MAX_ORDER_LINE_PER_ORDER + 1) + u64 number).toNat = _
  rw [toNat_add, toNat_mul, hlines,
    toNat_orderKey hw hd ho, toNat_u64 (by decide) (by omega)]
  omega

theorem orderKey_lt_iff {w_id d_id o_id w_id' d_id' o_id' : Int32} (h : InRange w_id d_id o_id)
    (h' : InRange w_id' d_id' o_id') :
    orderKey w_id d_id o_id < orderKey w_id' d_id' o_id' ↔
      w_id.toNat < w_id'.toNat ∨ w_id.toNat = w_id'.toNat ∧
        (d_id.toNat < d_id'.toNat ∨ d_id.toNat = d_id'.toNat ∧ o_id.toNat < o_id'.toNat) := by
  obtain ⟨-, hw, hd, -, ho⟩ := h
  obtain ⟨-, hw', hd', -, ho'⟩ := h'
  rw [lt_def, toNat_orderKey hw hd (by omega), toNat_orderKey hw' hd' (by omega)]
  omega

theorem lexicographic_new_order :
    Lexicographic new_order.key.get_plain_key new_order.key.fields new_order.key.InRange := by
  refine lexicographic_of_lt ?_ fun a b ha hb => (orderKey_lt_iff ha hb).trans ?_
  · rintro ⟨w, d, o⟩ ⟨w', d', o'⟩ h
    simpa [new_order.key.fields, toNat_inj] using h
  · simp only [new_order.key.fields, Prod.Lex.toLex_lt_toLex]

theorem lexicographic_order :
    Lexicographic order.key.get_plain_key order.key.fields order.key.InRange := by
  refine lexicographic_of_lt ?_ fun a b ha hb => (orderKey_lt_iff ha hb).trans ?_
  · rintro ⟨w, d, o⟩ ⟨w', d', o'⟩ h
    simpa [order.key.fields, toNat_inj] using h
  · simp only [order.key.fields, Prod.Lex.toLex_lt_toLex]

theorem lexicographic_order_customer : Lexicographic order_customer.key.get_plain_key
    order_customer.key.fields order_customer.key.InRange := by
  refine lexicographic_of_lt ?_ fun a b ha hb => ?_
  · rintro ⟨w, d, c, o⟩ ⟨w', d', c', o'⟩ h
    simpa [order_customer.key.fields, toNat_inj] using h
  · rw [lt_def, toNat_orderCustomer ha, toNat_orderCustomer hb]
    obtain ⟨⟨-, hw, hd, -, ho⟩, hc⟩ := ha
    obtain ⟨⟨-, hw', hd', -, ho'⟩, hc'⟩ := hb
    simp only [order_customer.key.fields, Prod.Lex.toLex_lt_toLex]
    omega

theorem lexicographic_order_line : Lexicographic order_line.key.get_plain_key
    order_line.key.fields order_line.key.InRange := by
  refine lexicographic_of_lt ?_ fun a b ha hb => ?_
  · rintro ⟨w, d, o, n⟩ ⟨w', d', o', n'⟩ h
    simpa [order_line.key.fields, toNat_inj] using h
  · obtain ⟨⟨-, hw, hd, -, ho⟩, hn⟩ := ha
    obtain ⟨⟨-, hw', hd', -, ho'⟩, hn'⟩ := hb
    rw [lt_def, toNat_orderLine hw hd (by omega) hn, toNat_orderLine hw' hd' (by omega) hn']
    simp only [order_line.key.fields, Prod.Lex.toLex_lt_toLex]
    omega

-- The upper bound of a district is the number with which the next one starts, whose first order
-- id is 1.
theorem delivered_new_order {w_id d_id : Int32} (hw : w_id.toNat ≤ 60000) (hd : d_id.toNat ≤ 10)
    {k : new_order.key} (hk : k.InRange) :
    k.Delivered w_id d_id ↔ k.NO_W_ID = w_id ∧ k.NO_D_ID = d_id := by
  obtain ⟨-, hkw, hkd, hpos, hlt⟩ := hk
  have hmax : MAX_ORDER_ID.toNat = 2147483647 := rfl
  have hzero : (0 : Int32).toNat = 0 := rfl
  simp only [new_order.key.Delivered, selects_iff, new_order.key.get_plain_key]
  rw [toNat_orderKey hw hd (by decide), toNat_orderKey hw hd (by decide),
    toNat_orderKey hkw hkd (by omega), ← toNat_inj, ← toNat_inj, hmax, hzero]
  omega

theorem delivered_order_line {w_id d_id o_id : Int32} (h : InRange w_id d_id o_id)
    {k : order_line.key} (hk : k.InRange) (hpos : 1 ≤ k.OL_NUMBER.toNat) :
    k.Delivered w_id d_id o_id ↔ k.OL_W_ID = w_id ∧ k.OL_D_ID = d_id ∧ k.OL_O_ID = o_id := by
  obtain ⟨-, hw, hd, -, ho⟩ := h
  obtain ⟨⟨-, hkw, hkd, -, hko⟩, hn⟩ := hk
  have hfirst : (1 : BitVec 8).toNat = 1 := rfl
  have hlast : (MAX_ORDER_LINE_PER_ORDER.setWidth 8).toNat = 15 := rfl
  rw [order_line.key.Delivered, selects_iff, toNat_orderLine hw hd (by omega) (by decide),
    toNat_orderLine hw hd (by omega) (by decide), toNat_orderLine hkw hkd (by omega) hn,
    ← toNat_inj, ← toNat_inj, ← toNat_inj, hfirst, hlast]
  omega

theorem ordered_keys_lexicographic :
    Lexicographic new_order.key.get_plain_key new_order.key.fields new_order.key.InRange ∧
    Lexicographic order.key.get_plain_key order.key.fields order.key.InRange ∧
    Lexicographic order_customer.key.get_plain_key order_customer.key.fields
      order_customer.key.InRange ∧
    Lexicographic order_line.key.get_plain_key order_line.key.fields order_line.key.InRange ∧
    ∀ w_id d_id o_id, InRange w_id d_id o_id →
      (∀ k : new_order.key, k.InRange →
        (k.Delivered w_id d_id ↔ k.NO_W_ID = w_id ∧ k.NO_D_ID = d_id)) ∧
      ∀ k : order_line.key, k.InRange → 1 ≤ k.OL_NUMBER.toNat →
        (k.Delivered w_id d_id o_id ↔
          k.OL_W_ID = w_id ∧ k.OL_D_ID = d_id ∧ k.OL_O_ID = o_id) := by
  refine ⟨lexicographic_new_order, lexicographic_order, lexicographic_order_customer,
    lexicographic_order_line, fun w_id d_id o_id h => ⟨fun k hk => ?_, fun k hk hpos => ?_⟩⟩
  · exact delivered_new_order h.w_id_le h.d_id_le hk
  · exact delivered_order_line h hk hpos

-- The last order of district 2, next to the first one of district 3.
theorem ordered_keys_of_adjacent_districts :
    (new_order.key.mk 60000 2 0x7ffffffe).get_plain_key
        < (new_order.key.mk 60000 3 1).get_plain_key ∧
      (new_order.key.mk 60000 2 0x7ffffffe).Delivered 60000 2 := by
  have hlast : (new_order.key.mk 60000 2 0x7ffffffe).InRange := by constructor <;> decide
  have hfirst : (new_order.key.mk 60000 3 1).InRange := by constructor <;> decide
  obtain ⟨hnew_order, -, -, -, hdelivery⟩ := ordered_keys_lexicographic
  refine ⟨(hnew_order.lt_iff _ _ hlast hfirst).mpr (by decide), ?_⟩
  exact ((hdelivery 60000 2 0x7ffffffe hlast).1 _ hlast).mpr ⟨rfl, rfl⟩

end Tigon.Benchmark.Tpcc
