import Tigon.TwoPLPasha.Requests

namespace Tigon.TwoPLPasha

open List Tigon.Library Ledger

section Tuples

variable {ρ : Type}

def locksOf (kind : LockKind) (ptrs : List (RowPtr ρ)) : Multiset (Resource ρ) :=
  (ptrs.map fun ptr => Resource.lock kind ptr.row : List (Resource ρ))

def countsOf (ptrs : List (RowPtr ρ)) : Multiset (Resource ρ) :=
  (ptrs.map fun ptr => Resource.ref_cnt ptr.row : List (Resource ρ))

def tuplesOf (remote : Bool) (kind : LockKind) (ptrs : List (RowPtr ρ)) : Multiset (Resource ρ) :=
  locksOf kind ptrs + if remote then countsOf ptrs else 0

-- A pointer that stands for something held only when its flag is set.
def flagged (flag : Bool) (ptr : Option (RowPtr ρ)) : List (RowPtr ρ) :=
  if flag then ptr.toList else []

@[simp] theorem flagged_false (ptr : Option (RowPtr ρ)) : flagged false ptr = [] := rfl

@[simp] theorem flagged_none (flag : Bool) : flagged flag (none : Option (RowPtr ρ)) = [] := by
  cases flag <;> rfl

@[simp] theorem locksOf_nil (kind : LockKind) : locksOf kind ([] : List (RowPtr ρ)) = 0 := rfl

@[simp] theorem countsOf_nil : countsOf ([] : List (RowPtr ρ)) = 0 := rfl

theorem locksOf_append (kind : LockKind) (ptrs ptrs' : List (RowPtr ρ)) :
    locksOf kind (ptrs ++ ptrs') = locksOf kind ptrs + locksOf kind ptrs' := by
  rw [locksOf, map_append, ← Multiset.coe_add]
  rfl

theorem countsOf_append (ptrs ptrs' : List (RowPtr ρ)) :
    countsOf (ptrs ++ ptrs') = countsOf ptrs + countsOf ptrs' := by
  rw [countsOf, map_append, ← Multiset.coe_add]
  rfl

theorem tuplesOf_append (remote : Bool) (kind : LockKind) (ptrs ptrs' : List (RowPtr ρ)) :
    tuplesOf remote kind (ptrs ++ ptrs')
      = tuplesOf remote kind ptrs + tuplesOf remote kind ptrs' := by
  unfold tuplesOf
  rw [locksOf_append, countsOf_append]
  cases remote
  · simp only [Bool.false_eq_true, if_false, add_zero]
  · exact add_add_add_comm _ _ _ _

@[simp] theorem tuplesOf_nil (remote : Bool) (kind : LockKind) :
    tuplesOf remote kind ([] : List (RowPtr ρ)) = 0 := by
  cases remote <;> rfl

theorem exists_row_of_mem_tuplesOf {remote : Bool} {kind : LockKind} {ptrs : List (RowPtr ρ)}
    {r : Resource ρ} (h : r ∈ tuplesOf remote kind ptrs) : ∃ ptr ∈ ptrs, ptr.row = r.row := by
  have hcounts : r ∈ locksOf kind ptrs ∨ r ∈ countsOf ptrs := by
    rcases Multiset.mem_add.mp h with h | h
    · exact .inl h
    · cases remote with
      | false => cases h
      | true => exact .inr h
  rcases hcounts with h | h
  · obtain ⟨ptr, hptr, rfl⟩ := mem_map.mp (Multiset.mem_coe.mp h)
    exact ⟨ptr, hptr, rfl⟩
  · obtain ⟨ptr, hptr, rfl⟩ := mem_map.mp (Multiset.mem_coe.mp h)
    exact ⟨ptr, hptr, rfl⟩

theorem row_to (remote : Bool) (row : ρ) : (RowPtr.to remote row).row = row := by
  cases remote <;> rfl

theorem fits_to (remote : Bool) (row : ρ) : (RowPtr.to remote row).fits remote = true := by
  cases remote <;> rfl

theorem lockTuple_some (remote : Bool) (kind : LockKind) (row : ρ) (held : Multiset (Resource ρ)) :
    lockTuple remote kind row (some held)
      = some (tuplesOf remote kind [.to remote row] + held) := by
  unfold lockTuple tuplesOf locksOf countsOf
  rw [map_singleton, map_singleton, row_to, take_some]
  cases remote
  · rw [if_neg Bool.false_ne_true, if_neg Bool.false_ne_true, add_zero]
    rfl
  · rw [if_pos rfl, if_pos rfl, take_some, ← add_assoc, add_comm {Resource.ref_cnt row}]
    rfl

end Tuples

section Returns

variable {κ ρ : Type}

-- What a call gives back; `counted key row` says that a point request has counted `row`
-- under `key`.
inductive Returns (counted : κ → ρ → Prop) : Call κ ρ → Multiset (Resource ρ) → Prop
  | lock_release {remote : Bool} {kind : LockKind} {ptr : RowPtr ρ} {value : Option Word}
      (hfits : ptr.fits remote = true) :
      Returns counted (.lock_release remote kind (some ptr) value) {.lock kind ptr.row}
  | release_migrated_row {key : κ} {row : ρ} (hcounted : counted key row) :
      Returns counted (.release_migrated_row key) {.ref_cnt row}
  | decrease_reference_count_via_ptr {ptr : RowPtr ρ} (hfits : ptr.fits true = true) :
      Returns counted (.decrease_reference_count_via_ptr (some ptr)) {.ref_cnt ptr.row}
  | remove {key : κ} : Returns counted (.remove key) 0

variable {counted : κ → ρ → Prop} {ptrs : List (RowPtr ρ)}

theorem apply_of_returns [DecidableEq ρ] {call : Call κ ρ} {part : Multiset (Resource ρ)}
    (h : Returns counted call part) {cxl_index : κ → Option ρ}
    (hindex : ∀ key row, call = .release_migrated_row key → counted key row →
      cxl_index key = some row) (rest : Multiset (Resource ρ)) :
    call.apply cxl_index (some (part + rest)) = some rest := by
  cases h with
  | lock_release hfits => rw [Call.apply, if_pos hfits, give_some]
  | release_migrated_row hcounted =>
    rw [Call.apply, hindex _ _ rfl hcounted]
    exact give_some _ _
  | decrease_reference_count_via_ptr hfits => rw [Call.apply, if_pos hfits, give_some]
  | remove => rw [Call.apply, zero_add]

theorem settles_lock_release {remote : Bool} (kind : LockKind) (value : Option Word)
    (hfits : ∀ ptr ∈ ptrs, ptr.fits remote = true) :
    Settles (Returns counted)
      (ptrs.map fun ptr => Call.lock_release remote kind (some ptr) value) (locksOf kind ptrs) :=
  Settles.map fun ptr hptr => Returns.lock_release (hfits ptr hptr)

theorem settles_decrease (hfits : ∀ ptr ∈ ptrs, ptr.fits true = true) :
    Settles (Returns counted)
      (ptrs.map fun ptr => Call.decrease_reference_count_via_ptr (some ptr)) (countsOf ptrs) :=
  Settles.map fun ptr hptr => Returns.decrease_reference_count_via_ptr (hfits ptr hptr)

theorem settles_unwind (kind : LockKind) (hfits : ∀ ptr ∈ ptrs, ptr.fits true = true) :
    Settles (Returns counted) (ScanKey.unwind κ kind ptrs) (tuplesOf true kind ptrs) := by
  induction ptrs with
  | nil => exact .nil
  | cons ptr ptrs ih =>
    have hptr := hfits ptr mem_cons_self
    have hhead : Settles (Returns counted)
        [.lock_release true kind (some ptr) none, .decrease_reference_count_via_ptr (some ptr)]
        (tuplesOf true kind [ptr]) :=
      .cons (.lock_release hptr) (.cons (Returns.decrease_reference_count_via_ptr hptr) .nil)
    rw [← singleton_append, tuplesOf_append]
    exact hhead.append (ih fun ptr' h => hfits ptr' (mem_cons_of_mem ptr h))

theorem settles_flagged_lock_release {flag remote : Bool} {ptr : Option (RowPtr ρ)}
    (kind : LockKind) (value : Option Word) (hsome : flag = true → ptr.isSome = true)
    (hfits : ∀ p ∈ ptr, p.fits remote = true) :
    Settles (Returns counted) (if flag then [.lock_release remote kind ptr value] else [])
      (locksOf kind (flagged flag ptr)) := by
  cases flag with
  | false => exact .nil
  | true =>
    obtain ⟨p, rfl⟩ := Option.isSome_iff_exists.mp (hsome rfl)
    exact .cons (Returns.lock_release (hfits p rfl)) .nil

theorem settles_flagged_decrease {flag : Bool} {ptr : Option (RowPtr ρ)}
    (hsome : flag = true → ptr.isSome = true) (hfits : ∀ p ∈ ptr, p.fits true = true) :
    Settles (Returns counted) (if flag then [.decrease_reference_count_via_ptr ptr] else [])
      (countsOf (flagged flag ptr)) := by
  cases flag with
  | false => exact .nil
  | true =>
    obtain ⟨p, rfl⟩ := Option.isSome_iff_exists.mp (hsome rfl)
    exact .cons (Returns.decrease_reference_count_via_ptr (hfits p rfl)) .nil

end Returns

-- What a handler leaves behind: the entry records what is held, and a request that is sent
-- waits.
structure Handled.Records {E ρ : Type} (Sound : E → Prop) (held : E → Multiset (Resource ρ))
    (Waiting : E → Prop) (h : Handled E ρ) (rest : Multiset (Resource ρ)) : Prop where
  sound : Sound h.entry
  ledger : h.ledger = some (held h.entry + rest)
  waiting : h.progress = .sent → Waiting h.entry

namespace ReadKey

variable {κ ρ : Type} {k : ReadKey κ ρ}

def locks (k : ReadKey κ ρ) : Multiset (Resource ρ) :=
  locksOf .read (flagged k.read_lock_bit k.cached_row) +
  locksOf .write (flagged k.write_lock_bit k.cached_row)

def counts (k : ReadKey κ ρ) : Multiset (Resource ρ) :=
  countsOf (flagged k.reference_counted (k.cached_migrated_row.map .cxlRow))

def held (k : ReadKey κ ρ) : Multiset (Resource ρ) := k.locks + k.counts

structure Sound (k : ReadKey κ ρ) : Prop where
  idle : k.processed = false → k.read_lock_bit = false ∧ k.write_lock_bit = false
  locked : k.read_lock_bit = true ∨ k.write_lock_bit = true → k.cached_row.isSome = true
  counted : k.reference_counted = true → k.cached_migrated_row.isSome = true

structure Waiting (k : ReadKey κ ρ) : Prop where
  processed : k.processed = true
  remote : k.has_master_partition = false
  local_index : k.request.local_index_read_bit = false
  read_lock : k.read_lock_bit = false
  write_lock : k.write_lock_bit = false
  uncounted : k.reference_counted = false

theorem held_of_unlocked (hread : k.read_lock_bit = false) (hwrite : k.write_lock_bit = false) :
    k.held = k.counts := by
  rw [held, locks, hread, hwrite, flagged_false, locksOf_nil, locksOf_nil, zero_add, zero_add]

theorem locksOf_kind (hlocal : k.request.local_index_read_bit = false) (row : RowPtr ρ) :
    locksOf .read (flagged k.request.read_lock_request_bit (some row)) +
      locksOf .write (flagged k.request.write_lock_request_bit (some row))
      = {Resource.lock k.kind row.row} := by
  unfold kind
  cases hrequest : k.request with
  | search_local_index =>
    rw [hrequest] at hlocal
    cases hlocal
  | search_for_read | search_for_update => rfl

end ReadKey

namespace InsertKey

variable {κ ρ : Type}

def locks (k : InsertKey κ ρ) : Multiset (Resource ρ) :=
  locksOf .write (flagged k.is_next_row_locked k.next_row_entity)

def counts (k : InsertKey κ ρ) : Multiset (Resource ρ) :=
  countsOf (flagged k.reference_counted (k.inserted_cxl_row.map .cxlRow))

def held (k : InsertKey κ ρ) : Multiset (Resource ρ) := k.locks + k.counts

structure Sound (k : InsertKey κ ρ) : Prop where
  idle : k.processed = false → k.is_next_row_locked = false
  next : k.has_master_partition = true → k.is_next_row_locked = true →
    k.next_row_entity.isSome = true
  next_fits : ∀ ptr ∈ k.next_row_entity, ptr.fits false = true
  no_next : k.has_master_partition = false → k.next_row_entity = none
  counted : k.reference_counted = true →
    k.has_master_partition = false ∧ k.inserted_cxl_row.isSome = true
  replica : k.require_lock_next_row = true → k.local_insert = k.has_master_partition

-- Unlike the others an insert waits for the owner only while the transaction commits.
structure Waiting (k : InsertKey κ ρ) : Prop where
  remote : k.has_master_partition = false
  uncounted : k.reference_counted = false

end InsertKey

namespace ScanKey

variable {ρ : Type}

def tuples (k : ScanKey ρ) : List (RowPtr ρ) :=
  flagged k.is_next_row_locked k.next_row_entity ++ k.scan_results

def held (k : ScanKey ρ) : Multiset (Resource ρ) :=
  tuplesOf (!k.has_master_partition) k.type.kind k.tuples

structure Sound (k : ScanKey ρ) : Prop where
  idle : k.processed = false → k.is_next_row_locked = false
  next : k.is_next_row_locked = true → k.next_row_entity.isSome = true
  next_fits : ∀ ptr ∈ k.next_row_entity, ptr.fits (!k.has_master_partition) = true
  fits : ∀ ptr ∈ k.scan_results, ptr.fits (!k.has_master_partition) = true
  replica : k.local_scan = k.has_master_partition

structure Waiting (k : ScanKey ρ) : Prop where
  processed : k.processed = true
  remote : k.has_master_partition = false
  unlocked : k.is_next_row_locked = false

end ScanKey

end Tigon.TwoPLPasha
