import Tigon.Pasha.MigrationManager

namespace Tigon.Pasha.MigrationManager

variable {σ ρ β ν : Type} [DecidableEq ρ]

-- What a state shows of its rows: where they are placed, how often they are referenced, and
-- which have been moved out so far.
structure View (σ ρ β : Type) where
  inv : σ → Prop
  placed : σ → ρ → Option β
  ref_cnt : σ → ρ → Nat
  log : σ → List ρ

namespace View

variable {v : View σ ρ β} {s s₁ s₂ : σ} {moved : List ρ}

structure Takes (v : View σ ρ β) (s s' : σ) (moved : List ρ) : Prop where
  log : v.log s' = v.log s ++ moved
  nodup : moved.Nodup
  free : ∀ row ∈ moved, (v.placed s row).isSome ∧ v.ref_cnt s row = 0
  placed : ∀ row, v.placed s' row = if row ∈ moved then none else v.placed s row
  ref_cnt : ∀ row, (v.placed s' row).isSome → v.ref_cnt s' row = v.ref_cnt s row

namespace Takes

theorem refl (v : View σ ρ β) (s : σ) : v.Takes s s [] :=
  ⟨by simp, .nil, by simp, by simp, fun _ _ => rfl⟩

theorem not_mem (h : v.Takes s s₁ moved) {row : ρ} (hrow : (v.placed s₁ row).isSome) :
    row ∉ moved ∧ v.placed s₁ row = v.placed s row := by
  have hplaced := h.placed row
  by_cases hmem : row ∈ moved
  · rw [if_pos hmem] at hplaced
    simp [hplaced] at hrow
  · rw [if_neg hmem] at hplaced
    exact ⟨hmem, hplaced⟩

theorem trans {moved₁ moved₂ : List ρ} (h₁ : v.Takes s s₁ moved₁) (h₂ : v.Takes s₁ s₂ moved₂) :
    v.Takes s s₂ (moved₁ ++ moved₂) where
  log := by rw [h₂.log, h₁.log, List.append_assoc]
  nodup := by
    rw [List.nodup_append]
    refine ⟨h₁.nodup, h₂.nodup, ?_⟩
    intro row hrow row' hrow'
    have hnot := (h₁.not_mem (h₂.free row' hrow').1).1
    exact ne_of_mem_of_not_mem hrow hnot
  free := by
    intro row hrow
    rcases List.mem_append.mp hrow with hrow | hrow
    · exact h₁.free row hrow
    · obtain ⟨hsome, hzero⟩ := h₂.free row hrow
      rw [h₁.ref_cnt row hsome] at hzero
      rw [(h₁.not_mem hsome).2] at hsome
      exact ⟨hsome, hzero⟩
  placed := by
    intro row
    rw [h₂.placed, h₁.placed]
    by_cases hmem₂ : row ∈ moved₂
    · simp [hmem₂]
    · simp [hmem₂]
  ref_cnt := by
    intro row hsome
    have hsome₁ := hsome
    rw [(h₂.not_mem hsome).2] at hsome₁
    rw [h₂.ref_cnt row hsome, h₁.ref_cnt row hsome₁]

theorem placed_of_pos (h : v.Takes s s₁ moved) {row : ρ} (hpos : 0 < v.ref_cnt s row) :
    v.placed s₁ row = v.placed s row := by
  rw [h.placed, if_neg]
  intro hmem
  have hzero := (h.free row hmem).2
  omega

end Takes

end View

-- A move-out of a row that is placed succeeds just when the row has no reference.
structure Evicts (v : View σ ρ β) (callbacks : Callbacks σ ρ ν) : Prop where
  refuses : ∀ s row, v.inv s → (v.placed s row).isSome → 0 < v.ref_cnt s row →
    ∃ s', callbacks.move_from_shared_region_to_partition row s = (s', false) ∧ v.inv s' ∧
      v.Takes s s' []
  moves : ∀ s row, v.inv s → (v.placed s row).isSome → v.ref_cnt s row = 0 →
    ∃ s', callbacks.move_from_shared_region_to_partition row s = (s', true) ∧ v.inv s' ∧
      v.Takes s s' [row]

def Callbacks.logged (callbacks : Callbacks σ ρ ν) : Callbacks (σ × List ρ) ρ ν where
  move_from_partition_to_shared_region row inc_ref_cnt s :=
    (callbacks.move_from_partition_to_shared_region row inc_ref_cnt s.1).map
      fun (s', res, n) => ((s', s.2), res, n)
  move_from_shared_region_to_partition row s :=
    let (s', success) := callbacks.move_from_shared_region_to_partition row s.1
    ((s', if success then s.2 ++ [row] else s.2), success)
  delete_and_update_next_key_info row is_delete_local s :=
    let (s', deletion) := callbacks.delete_and_update_next_key_info row is_delete_local s.1
    ((s', s.2), deletion)

end Tigon.Pasha.MigrationManager
