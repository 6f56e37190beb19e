import Tigon.TwoPLPasha.Table.Spec

namespace Tigon.TwoPLPasha

open Tigon.Library

namespace Table

variable {K α : Type} [LinearOrder K]

-- An abort finds its placeholder not migrated.
def AbortsUnmigrated (t : Table K α) : TableLabel K α → Prop
  | .abortInsert key => key ∈ t.keys → (t.row key).lmeta.is_migrated = false
  | _ => True

instance (t : Table K α) (e : TableLabel K α) : Decidable (t.AbortsUnmigrated e) := by
  cases e <;> unfold AbortsUnmigrated <;> infer_instance

variable {ctx : Context} {host : Host} {t t' : Table K α} {e : TableLabel K α}

theorem WellFormed.call (ht : t.WellFormed) {key : K} {c : RowCall α} {r : RowState α}
    (h : c.apply host (t.row key) = some r) : (t.onRow key fun _ => r).WellFormed := by
  obtain ⟨hplace, hr⟩ := RowCall.presence_apply (ht.row key) h
  exact ht.onRow_samePlace hplace hr

theorem WellFormed.abortInsert (ht : t.WellFormed) {key : K}
    (hok : t.AbortsUnmigrated (.abortInsert key)) : (t.abortInsert key).WellFormed := by
  refine ⟨ht.row, fun k hk => ?_⟩
  have hk' : k ∉ t.keys.erase key := hk
  by_cases hmem : k ∈ t.keys
  · have hkk : k = key := by
      by_contra hne
      exact hk' (Finset.mem_erase.mpr ⟨hne, hmem⟩)
    subst hkk
    exact hok hmem
  · exact ht.gone k hmem

theorem wellFormed_step (ht : t.WellFormed) (hok : t.AbortsUnmigrated e)
    (h : step ctx host t e = some t') : t'.WellFormed := by
  cases e with
  | insert key value require =>
    simp only [step, Option.map_eq_some_iff] at h
    obtain ⟨⟨t₁, ok⟩, hinsert, rfl⟩ := h
    exact (insert_and_update_next_key_info_spec ht hinsert).2
  | commitInsert key => exact (commitInsert_spec ht h).2.2
  | abortInsert key =>
    cases h
    exact ht.abortInsert hok
  | delete key is_local_delete =>
    rcases delete_of_step ht h with rfl | ⟨_, -, -, hwf⟩
    · exact ht
    · exact hwf
  | moveIn key alloc inc => exact (moveIn_of_step ht h).2.2
  | moveOut key =>
    rcases moveOut_of_step ht h with rfl | ⟨-, -, hwf⟩
    · exact ht
    · exact hwf
  | call key c =>
    obtain ⟨r, hcall, rfl⟩ := call_of_step h
    exact ht.call hcall

omit [LinearOrder K] in
theorem wellFormed_load (keys : Finset K) (smeta : Ptr → TwoPLPashaMetadataShared)
    (scc : Word → TwoPLPashaSharedDataSCC α) (value : K → α) :
    (load keys smeta scc value).WellFormed :=
  ⟨fun _ => ⟨nofun, nofun, rfl⟩, fun _ _ => rfl⟩

-- In every run whose aborts find their placeholders not migrated, the CXL index maps a
-- key to a shared row exactly when the local index has it as migrated to that row.
theorem cxl_index_matches_local_index (ctx : Context) (host : Host) (keys : Finset K)
    (smeta : Ptr → TwoPLPashaMetadataShared) (scc : Word → TwoPLPashaSharedDataSCC α)
    (value : K → α) {t : Table K α}
    (hreach : Reach (step ctx host) AbortsUnmigrated (load keys smeta scc value) t)
    (key : K) (row : Ptr) :
    (t.row key).cxl = some row ↔
      key ∈ t.keys ∧ (t.row key).lmeta.is_migrated = true ∧
        (t.row key).lmeta.migrated_row = row := by
  have ht := hreach.invariant (wellFormed_load keys smeta scc value)
    fun _ _ _ ht hok h => wellFormed_step ht hok h
  have hcxl := (ht.row key).cxl
  constructor
  · intro hrow
    rw [hrow] at hcxl
    split at hcxl
    · rename_i hm
      refine ⟨?_, hm, (Option.some.inj hcxl).symm⟩
      by_contra hkey
      have hnot : (t.row key).lmeta.is_migrated = false := ht.gone key hkey
      exact absurd (hm.symm.trans hnot) (by decide)
    · cases hcxl
  · rintro ⟨-, hm, hrow⟩
    rw [hcxl, hm, hrow]
    rfl

section Example

def threeKeys : Table Nat Nat :=
  load {1, 5, 9} (fun _ => ⟨0⟩) (fun _ => ⟨0, 0, 0, 0⟩) id

theorem moved_in_placeholder_is_indexed :
    ∃ t : Table Nat Nat, Reach (step ⟨true, true⟩ 0) AbortsUnmigrated threeKeys t ∧
      3 ∈ t.keys ∧ (t.row 3).cxl = some 1 := by
  obtain ⟨t, hreach, hmem, hm, hrow⟩ := exists_reach_of_run (step ⟨true, true⟩ 0)
    AbortsUnmigrated threeKeys
    [.insert 3 30 true, .moveIn 3 ⟨some 1, some (64, ⟨0, 0, 0, 0⟩)⟩ false, .commitInsert 3]
    (fun t => 3 ∈ t.keys ∧ (t.row 3).lmeta.is_migrated = true ∧
      (t.row 3).lmeta.migrated_row = 1) (by decide)
  exact ⟨t, hreach, hmem, (cxl_index_matches_local_index _ _ _ _ _ _ hreach 3 1).mpr
    ⟨hmem, hm, hrow⟩⟩

-- The abort of an insert whose placeholder was moved in leaves it in the CXL index.
theorem abort_leaves_placeholder_in_cxl_index :
    ∃ t : Table Nat Nat, Reach (step ⟨true, true⟩ 0) (fun _ _ => True) threeKeys t ∧
      3 ∉ t.keys ∧ (t.row 3).cxl = some 1 :=
  exists_reach_of_run _ _ _
    [.insert 3 30 true, .moveIn 3 ⟨some 1, some (64, ⟨0, 0, 0, 0⟩)⟩ false, .abortInsert 3] _
    (by decide)

end Example

end Table

end Tigon.TwoPLPasha
