import Tigon.TwoPLPasha.SccBlock

namespace Tigon.TwoPLPasha

open Finset Tigon.Library

namespace SccHost

open SCCManager SccLayout

variable {b : SccBlock} {s t : SccHost}

-- The last byte a write may store to lies in a line that the release writes back, and the
-- last byte of the block in one of the lines of the header.
structure Covers (b : SccBlock) : Prop where
  written : lineOf cacheline_size (b.addr + if b.value_size = 0 then ref_cnt
      else data + (b.value_size - 1)) < b.addr + (sizeofMetadataShared + b.value_size)
  flushed : lineOf cacheline_size (b.addr + (sizeofSharedDataSCC + b.value_size - 1)) <
    b.addr + sizeofSharedDataSCC

theorem cacheline_pos : 0 < cacheline_size := by decide

variable {offset len : Nat}

theorem touched_subset_clwb {n : Nat} :
    b.touched offset (n + 1) ⊆ clwb b.addr len ↔
      lineOf cacheline_size (b.addr + (offset + n)) < b.addr + len := by
  rw [← Nat.add_assoc]
  exact touched_subset_lineWalk cacheline_pos (by omega)

theorem touched_subset_clwb_of_le {n : Nat} (h : offset + n ≤ len) :
    b.touched offset n ⊆ clwb b.addr len :=
  touched_subset_of_le cacheline_pos (by omega) (by omega)

theorem lines_subset_clflush (b : SccBlock) :
    b.lines ⊆ clflush b.addr (sizeofSharedDataSCC + b.value_size) :=
  touched_subset_clwb_of_le (by omega)

def stored (b : SccBlock) : Finset Nat :=
  b.touched flags 1 ∪ b.touched ref_cnt 1 ∪ b.touched data b.value_size

structure Covered (b : SccBlock) (s : SccHost) : Prop where
  modified : s.modified ⊆ stored b
  missed : s.missed = ∅
  unflushed : s.unflushed = ∅

namespace Covered

theorem store {offset len : Nat} (h : Covered b s) (hsub : b.touched offset len ⊆ stored b) :
    Covered b (s.store b offset len) :=
  ⟨union_subset h.modified hsub, h.missed, h.unflushed⟩

theorem store_flags (h : Covered b s) : Covered b (s.store b flags 1) := by
  refine h.store fun l hl => ?_
  simp only [stored, mem_union]
  exact .inl (.inl hl)

theorem count (h : Covered b s) (inc : Bool) : Covered b (s.storeIf b inc ref_cnt 1) := by
  rw [storeIf]
  split
  · refine h.store fun l hl => ?_
    simp only [stored, mem_union]
    exact .inl (.inr hl)
  · exact h

theorem store_data (h : Covered b s) : Covered b (s.store b data b.value_size) := by
  refine h.store fun l hl => ?_
  simp only [stored, mem_union]
  exact .inr hl

theorem prepare_read {size : Nat} (h : Covered b s) (hsub : b.lines ⊆ clflush b.addr size) :
    Covered b (s.prepare_read b size) := by
  rw [SccHost.prepare_read]
  split
  · exact h
  · refine ⟨h.modified, h.missed, ?_⟩
    rw [h.unflushed, sdiff_eq_empty_iff_subset.mpr hsub]
    rfl

end Covered

theorem covered_finish_write {size : Nat} (h : s.finish_write b size = some t)
    (hmissed : s.missed = ∅) (hunflushed : s.unflushed = ∅)
    (hsub : s.modified ⊆ clwb b.addr size) : Covered b t := by
  rw [finish_write] at h
  split at h
  · cases h
    refine ⟨empty_subset _, ?_, hunflushed⟩
    rw [hmissed, sdiff_eq_empty_iff_subset.mpr hsub]
    rfl
  · cases h

theorem covered_lock (kind : LockKind) (inc success : Bool) (h : Covered b s) :
    Covered b (s.lock b kind inc success) := by
  have hread := h.prepare_read (lines_subset_clflush b)
  have hwrite : Covered b { s.prepare_read b (sizeofSharedDataSCC + b.value_size) with
      writing := true, modified := ∅ } :=
    ⟨empty_subset _, hread.missed, hread.unflushed⟩
  cases success with
  | false => exact hread
  | true =>
    cases kind with
    | read => exact hread.count inc
    | write => exact hwrite.count inc

theorem covered_lockLocal (kind : LockKind) (success : Bool) (h : Covered b s) :
    Covered b (s.lockLocal kind success) := by
  cases kind with
  | read => exact h
  | write =>
    cases success with
    | false => exact h
    | true => exact ⟨empty_subset _, h.missed, h.unflushed⟩

theorem stored_subset_clwb (hb : Covers b) :
    stored b ∪ b.touched tid 8 ⊆ clwb b.addr (sizeofMetadataShared + b.value_size) := by
  have hlast := hb.written
  -- the header is in front of the last byte
  have hheader : ∀ offset, offset ≤ ref_cnt →
      b.touched offset 1 ⊆ clwb b.addr (sizeofMetadataShared + b.value_size) := by
    intro offset hoffset
    rw [touched_subset_clwb]
    refine lt_of_le_of_lt (lineOf_mono cacheline_size ?_) hlast
    simp only [ref_cnt, data, migration_policy_meta, migration_policy_meta_size] at hoffset ⊢
    split <;> omega
  have hdata : b.touched data b.value_size ⊆ clwb b.addr (sizeofMetadataShared + b.value_size) := by
    cases hsize : b.value_size with
    | zero => exact empty_subset _
    | succ n =>
      rw [hsize, if_neg (by omega)] at hlast
      exact touched_subset_clwb.mpr hlast
  refine union_subset (union_subset (union_subset ?_ ?_) hdata) ?_
  · exact hheader flags (by decide)
  · exact hheader ref_cnt (le_refl _)
  · exact touched_subset_clwb_of_le (Nat.le_add_right ..)

theorem covered_releaseVersion (hb : Covers b) (h : Covered b s)
    (hrel : s.releaseVersion b = some t) : Covered b t := by
  rw [releaseVersion] at hrel
  refine covered_finish_write hrel h.missed h.unflushed ?_
  exact (union_subset_union_left h.modified).trans (stored_subset_clwb hb)

theorem lines_subset_header :
    b.lines ⊆ clflush b.addr sizeofSharedDataSCC ↔
      lineOf cacheline_size (b.addr + (sizeofSharedDataSCC + b.value_size - 1)) <
        b.addr + sizeofSharedDataSCC := by
  have hsize : sizeofSharedDataSCC + b.value_size =
      sizeofSharedDataSCC + b.value_size - 1 + 1 := by
    simp only [sizeofSharedDataSCC, data, migration_policy_meta, migration_policy_meta_size]
    omega
  have hlines : b.lines = b.touched 0 (sizeofSharedDataSCC + b.value_size - 1 + 1) := by
    rw [← hsize]
    rfl
  rw [hlines, clflush, ← clwb, touched_subset_clwb, Nat.zero_add]

theorem covered_setValid (hb : Covers b) {is_insert : Bool} (h : Covered b s)
    (hset : s.setValid b is_insert = some t) : Covered b t := by
  rw [setValid] at hset
  split at hset
  · split at hset
    · cases hset
    · have hempty : Covered b { s with modified := ∅ } :=
        ⟨empty_subset _, h.missed, h.unflushed⟩
      have hread := hempty.store_flags.prepare_read (lines_subset_header.mpr hb.flushed)
      refine covered_finish_write hset hread.missed hread.unflushed ?_
      have hsame : ((store b flags 1 { s with modified := ∅ }).prepare_read b
          sizeofSharedDataSCC).modified = ∅ ∪ b.touched flags 1 := by
        rw [prepare_read]
        split <;> rfl
      rw [hsame, empty_union]
      exact touched_subset_clwb_of_le (by decide)
  · cases hset
    exact h.store_flags

-- Stores inside the block, all of which a finish_write of the whole block writes back.
structure Inside (b : SccBlock) (s : SccHost) : Prop where
  modified : s.modified ⊆ clwb b.addr (sizeofSharedDataSCC + b.value_size)
  missed : s.missed = ∅
  unflushed : s.unflushed = ∅

theorem Inside.store (h : Inside b s) (hlen : offset + len ≤ sizeofSharedDataSCC + b.value_size) :
    Inside b (s.store b offset len) :=
  ⟨union_subset h.modified (touched_subset_clwb_of_le hlen), h.missed, h.unflushed⟩

theorem Inside.storeIf (h : Inside b s) (cond : Bool)
    (hlen : offset + len ≤ sizeofSharedDataSCC + b.value_size) :
    Inside b (s.storeIf b cond offset len) := by
  rw [SccHost.storeIf]
  split
  · exact h.store hlen
  · exact h

theorem covered_moveIn {copied inc : Bool} (h : Covered b s)
    (hmove : s.moveIn b copied inc = some t) : Covered b t := by
  rw [moveIn] at hmove
  split at hmove
  · cases hmove
    exact h.count inc
  · have hempty : Inside b { s with migrated := true, bit := true, modified := ∅ } :=
      ⟨empty_subset _, h.missed, h.unflushed⟩
    have hheader : ∀ offset len, offset + len ≤ sizeofSharedDataSCC →
        offset + len ≤ sizeofSharedDataSCC + b.value_size := fun _ _ h => Nat.le_add_right_of_le h
    have hmeta := ((hempty.store (hheader migration_policy_meta migration_policy_meta_size
      (by decide))).store (hheader flags 1 (by decide))).store (hheader tid 8 (by decide))
    have hdata : data + b.value_size ≤ sizeofSharedDataSCC + b.value_size :=
      Nat.add_le_add_right (by decide) _
    have hall := (hmeta.storeIf copied hdata).storeIf inc (hheader ref_cnt 1 (by decide))
    exact covered_finish_write hmove hall.missed hall.unflushed hall.modified

section Calls

variable {f : SccHost → Option SccHost} (h : Covered b s)
  (hf : ∀ s t, Covered b s → f s = some t → Covered b t)

include h hf

theorem covered_owned {g : SccHost → SccHost} (hg : ∀ s, Covered b s → Covered b (g s))
    (hstep : s.owned f g = some t) : Covered b t := by
  rw [owned] at hstep
  split at hstep
  · exact hf s t h hstep
  · cases hstep
    exact hg s h

theorem covered_pointed (hstep : s.pointed f = some t) : Covered b t := by
  rw [pointed] at hstep
  split at hstep
  · exact hf s t h hstep
  · cases hstep

theorem covered_written (hstep : s.written f = some t) : Covered b t := by
  rw [written] at hstep
  split at hstep
  · exact hf s t h hstep
  · cases hstep

end Calls

theorem covered_ownerLock {kind : LockKind} {success : Bool} (h : Covered b s)
    (hstep : s.ownerLock b kind success = some t) : Covered b t := by
  refine covered_owned h (fun s t h ht => ?_) (fun s h => covered_lockLocal kind success h) hstep
  cases ht
  exact covered_lock kind false success h

theorem covered_remoteLock {kind : LockKind} {inc success : Bool} (h : Covered b s)
    (hstep : s.remoteLock b kind inc success = some t) : Covered b t := by
  refine covered_pointed h (fun s t h ht => ?_) hstep
  cases ht
  exact covered_lock kind inc success h

theorem covered_moveOut (h : Covered b s) : Covered b (s.moveOut b) := by
  have hread := (h.prepare_read (lines_subset_clflush b)).store_flags
  exact ⟨hread.modified, hread.missed, hread.unflushed⟩

theorem covered_step {e : SccCall} (hb : Covers b) (h : Covered b s)
    (hstep : s.step b e = some t) : Covered b t := by
  have hdata : ∀ s t, Covered b s → some (store b data b.value_size s) = some t → Covered b t := by
    intro s t h ht
    cases ht
    exact h.store_data
  have hout : ∀ s t, Covered b s → some (moveOut b s) = some t → Covered b t := by
    intro s t h ht
    cases ht
    exact covered_moveOut h
  have hfree : ∀ s : SccHost, Covered b s → Covered b { s with writing := false } :=
    fun s h => ⟨h.modified, h.missed, h.unflushed⟩
  have hrelease : ∀ s t, Covered b s → some { s with writing := false } = some t →
      Covered b t := by
    intro s t h ht
    cases ht
    exact hfree s h
  have hversion : ∀ s t, Covered b s → releaseVersion b s = some t → Covered b t :=
    fun s t h ht => covered_releaseVersion hb h ht
  cases e with
  | read_lock success | take_read_lock_and_read success => exact covered_ownerLock h hstep
  | remote_take_read_lock_and_read inc success
  | remote_read_lock_and_inc_ref_cnt success => exact covered_remoteLock h hstep
  | write_lock success | take_write_lock_and_read success => exact covered_ownerLock h hstep
  | remote_take_write_lock_and_read inc success
  | remote_write_lock_and_inc_ref_cnt success => exact covered_remoteLock h hstep
  | update =>
    exact covered_written h (fun s t h ht => covered_owned h hdata (fun _ h => h) ht) hstep
  | remote_update => exact covered_written h (fun s t h ht => covered_pointed h hdata ht) hstep
  | write_lock_release => exact covered_written h hrelease hstep
  | remote_write_lock_release =>
    exact covered_written h (fun s t h ht => covered_pointed h hrelease ht) hstep
  | write_lock_release_version =>
    exact covered_written h (fun s t h ht => covered_owned h hversion hfree ht) hstep
  | remote_write_lock_release_version =>
    exact covered_written h (fun s t h ht => covered_pointed h hversion ht) hstep
  | modify_tuple_valid_bit is_insert =>
    exact covered_owned h (fun s t h ht => covered_setValid hb h ht) (fun _ h => h) hstep
  | remote_modify_tuple_valid_bit is_insert =>
    exact covered_pointed h (fun s t h ht => covered_setValid hb h ht) hstep
  | move_from_hashmap_to_shared_region copied inc
  | move_from_btree_to_shared_region copied inc => exact covered_moveIn h hstep
  | move_from_hashmap_to_partition
  | move_from_btree_to_partition => exact covered_owned h hout (fun _ h => h) hstep
  | movedInElsewhere =>
    simp only [step] at hstep
    split at hstep
    · cases hstep
    · cases hstep
      exact ⟨h.modified, h.missed, h.unflushed⟩
  | movedOutElsewhere | finishedElsewhere =>
    cases hstep
    exact ⟨h.modified, h.missed, h.unflushed⟩

theorem written_of_missed
    (h : ∀ s, Reach (step b) (fun _ _ => True) start s → s.missed = ∅) :
    b.touched ref_cnt 1 ∪ b.touched data b.value_size ∪ b.touched tid 8 ⊆
      clwb b.addr (sizeofMetadataShared + b.value_size) := by
  have hrun : run (step b) (fun _ _ => True) start
      [.movedInElsewhere, .remote_take_write_lock_and_read true true, .remote_update,
        .remote_write_lock_release_version] = some _ := rfl
  have hmissed : ∅ ∪ ((∅ ∪ b.touched ref_cnt 1 ∪ b.touched data b.value_size ∪ b.touched tid 8) \
      clwb b.addr (sizeofMetadataShared + b.value_size)) = ∅ := h _ (reach_of_run .refl hrun)
  rw [empty_union, empty_union, sdiff_eq_empty_iff_subset] at hmissed
  exact hmissed

theorem flushed_of_unflushed
    (h : ∀ s, Reach (step b) (fun _ _ => True) start s → s.unflushed = ∅) :
    b.lines ⊆ clflush b.addr sizeofSharedDataSCC := by
  have hrun : run (step b) (fun _ _ => True) start
      [.movedInElsewhere, .remote_modify_tuple_valid_bit true] = some _ := rfl
  have hunflushed : ∅ ∪ (b.lines \ clflush b.addr sizeofSharedDataSCC) = ∅ :=
    h _ (reach_of_run .refl hrun)
  rwa [empty_union, sdiff_eq_empty_iff_subset] at hunflushed

-- Whatever the calls: every line stored to under a lock is written back, and every line of
-- the block is flushed before the bit is set, exactly for the blocks above.
theorem flushes_cover_block (b : SccBlock) :
    (∀ s, Reach (step b) (fun _ _ => True) start s → s.missed = ∅ ∧ s.unflushed = ∅) ↔
      Covers b := by
  constructor
  · intro h
    have hwritten := written_of_missed fun s hs => (h s hs).1
    have hflushed := flushed_of_unflushed fun s hs => (h s hs).2
    refine ⟨?_, lines_subset_header.mp hflushed⟩
    have hboth := union_subset_iff.mp (union_subset_iff.mp hwritten).1
    split
    · have hlast := touched_subset_clwb.mp hboth.1
      rwa [Nat.add_zero] at hlast
    · obtain ⟨n, hsize⟩ := Nat.exists_eq_succ_of_ne_zero ‹_›
      rw [hsize] at hboth ⊢
      exact touched_subset_clwb.mp hboth.2
  · intro hb s hs
    have hcovered : Covered b s := by
      refine hs.invariant (P := Covered b) ⟨empty_subset _, rfl, rfl⟩ ?_
      intro s e t h _ hstep
      exact covered_step hb h hstep
    exact ⟨hcovered.missed, hcovered.unflushed⟩

-- A block of 71 bytes at the start of a line. The release writes back 39 bytes and leaves
-- the line of the last one behind; an insert flushes 40 and leaves it in the cache.
theorem last_line_is_left_behind :
    (∃ s, Reach (step ⟨4096, 31⟩) (fun _ _ => True) start s ∧ s.missed = {4160}) ∧
    (∃ s, Reach (step ⟨4096, 31⟩) (fun _ _ => True) start s ∧ s.bit = true ∧
      s.unflushed = {4160}) := by
  constructor
  · exact exists_reach_of_run _ _ _
      [.movedInElsewhere, .remote_take_write_lock_and_read true true, .remote_update,
        .remote_write_lock_release_version] _ (by decide +kernel)
  · exact exists_reach_of_run _ _ _
      [.movedInElsewhere, .remote_modify_tuple_valid_bit true] _ (by decide +kernel)

end SccHost

end Tigon.TwoPLPasha
