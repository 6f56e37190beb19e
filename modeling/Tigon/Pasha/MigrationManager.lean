import Tigon.TwoPLPasha.Migration

namespace Tigon.Pasha

open Function List

open TwoPLPasha (migration_result)

-- Why a section under the tracker lock does not return: a CHECK fails (a null pointer
-- counts as one), or its loop takes more iterations than it was given.
inductive Stop
  | check
  | fuel
deriving DecidableEq

namespace Stop

variable {β : Type}

def onNone : Option β → Except Stop β
  | some b => .ok b
  | none => .error .check

end Stop

namespace MigrationManager

structure Deletion (ν : Type) where
  ret : Bool
  need_move_out : Bool
  migration_policy_meta : Option ν
deriving DecidableEq

-- The functions a manager is constructed with, over whatever holds the rows. A row is named
-- by its table and key, `ν` are the places of a policy's metadata in the shared blocks.
structure Callbacks (σ ρ ν : Type) where
  -- none where a CHECK of the function fails
  move_from_partition_to_shared_region : ρ → Bool → σ → Option (σ × migration_result × Option ν)
  move_from_shared_region_to_partition : ρ → σ → σ × Bool
  delete_and_update_next_key_info : ρ → Bool → σ → σ × Deletion ν

variable {σ ρ β : Type} [DecidableEq ρ]

structure Enumerates (l : List (ρ × β)) (placed : ρ → Option β) : Prop where
  nodup : l.Nodup
  mem : ∀ n, n ∈ l ↔ placed n.1 = some n.2

namespace Enumerates

variable {l us vs : List (ρ × β)} {placed : ρ → Option β} {row : ρ} {block : β} {n : ρ × β}

section

omit [DecidableEq ρ]

theorem not_mem_of_none (h : Enumerates l placed) (hnot : placed row = none) :
    (row, block) ∉ l := by
  intro hmem
  have hplaced := (h.mem _).mp hmem
  rw [hnot] at hplaced
  cases hplaced

theorem not_mem (h : Enumerates (us ++ n :: vs) placed) : n ∉ us ++ vs := by
  have hnodup := h.nodup
  rw [nodup_middle] at hnodup
  exact (nodup_cons.mp hnodup).1

theorem rows (h : Enumerates l placed) :
    (l.map Prod.fst).Nodup ∧ ∀ row, row ∈ l.map Prod.fst ↔ (placed row).isSome := by
  refine ⟨?_, fun row => ?_⟩
  · refine List.Nodup.map_on ?_ h.nodup
    intro m hm n hn hrow
    have hblock := (h.mem m).mp hm
    rw [hrow, (h.mem n).mp hn, Option.some_inj] at hblock
    exact Prod.ext hrow hblock.symm
  · rw [mem_map, Option.isSome_iff_exists]
    constructor
    · rintro ⟨n, hn, rfl⟩
      exact ⟨n.2, (h.mem n).mp hn⟩
    · rintro ⟨block, hblock⟩
      exact ⟨(row, block), (h.mem _).mpr hblock, rfl⟩

end

theorem erase (h : Enumerates (us ++ n :: vs) placed) :
    Enumerates (us ++ vs) (update placed n.1 none) := by
  have hplaced : placed n.1 = some n.2 := (h.mem n).mp (by simp)
  refine ⟨(nodup_middle.mp h.nodup).of_cons, fun m => ?_⟩
  have hm := h.mem m
  rw [perm_middle.mem_iff, mem_cons] at hm
  by_cases hrow : m.1 = n.1
  · rw [hrow, update_self]
    constructor
    · intro hmem
      have hblock := hm.mp (.inr hmem)
      rw [hrow, hplaced, Option.some_inj] at hblock
      have heq : m = n := Prod.ext hrow hblock.symm
      exact absurd (heq ▸ hmem) h.not_mem
    · nofun
  · have hne : m ≠ n := fun heq => hrow (congrArg Prod.fst heq)
    rw [update_of_ne hrow, ← hm]
    simp [hne]

theorem push (h : Enumerates l placed) (hnot : placed row = none) :
    Enumerates (l ++ [(row, block)]) (update placed row (some block)) := by
  refine ⟨?_, fun m => ?_⟩
  · rw [nodup_append]
    refine ⟨h.nodup, by simp, fun m hm n hn => ?_⟩
    rw [mem_singleton.mp hn]
    exact ne_of_mem_of_not_mem hm (h.not_mem_of_none hnot)
  · obtain ⟨r, b⟩ := m
    rw [mem_append, mem_singleton, h.mem]
    by_cases hrow : r = row
    · subst hrow
      simp [hnot, eq_comm]
    · simp [hrow]

end Enumerates

-- What a move-in does to where the rows are placed. The metadata of a row's policy lies in
-- the row's own block.
inductive Places (row : ρ) (placed placed' : ρ → Option β) :
    migration_result → Option (ρ × β) → Prop
  | success {block : β} (hnot : placed row = none)
      (hplaced : placed' = update placed row (some block)) :
      Places row placed placed' .SUCCESS (some (row, block))
  | already {n : Option (ρ × β)} (hplaced : placed' = placed) :
      Places row placed placed' .FAIL_ALREADY_IN_CXL n
  | outOfMemory {n : Option (ρ × β)} (hplaced : placed' = placed) :
      Places row placed placed' .FAIL_OOM n

-- A move-out takes its row away if it says so, and keeps what is known of the rows.
def TakesAway (inv : σ → Prop) (placed : σ → ρ → Option β)
    (callbacks : Callbacks σ ρ (ρ × β)) : Prop :=
  ∀ (s : σ) (row : ρ), inv s → (placed s row).isSome →
    inv (callbacks.move_from_shared_region_to_partition row s).1 ∧
      placed (callbacks.move_from_shared_region_to_partition row s).1
        = if (callbacks.move_from_shared_region_to_partition row s).2
          then update (placed s) row none else placed s

def MovesOut {ν : Type} (callbacks : Callbacks σ ρ ν) : σ → σ → Prop :=
  Relation.ReflTransGen fun s s' =>
    ∃ row, s' = (callbacks.move_from_shared_region_to_partition row s).1

end MigrationManager

-- The virtual functions of a manager for one partition. A move-out is told for each reading of
-- the usage whether it is below the budget, and how often its loop may turn.
structure MigrationManager (σ ρ ν P : Type) where
  access_row : ν → P → Except Stop P
  move_row_in : MigrationManager.Callbacks σ ρ ν → ρ → Bool → σ → P →
    Except Stop (σ × P × migration_result)
  move_row_out : MigrationManager.Callbacks σ ρ ν → (Nat → Bool) → Nat → σ → P →
    Except Stop (σ × P × Bool)
  delete_specific_row_and_move_out : MigrationManager.Callbacks σ ρ ν → ρ → Bool → σ → P →
    Except Stop (σ × P × Bool)

-- What a policy has to do for its tracker to follow the rows. `Accessible` and `Deletable` say
-- which rows an access and a delete may find.
structure MigrationManager.Follows {σ ρ β P : Type} [DecidableEq ρ]
    (m : MigrationManager σ ρ (ρ × β) P) (Tracks : P → (ρ → Option β) → Prop)
    (Accessible : (ρ → Option β) → ρ × β → Prop) (Deletable : (ρ → Option β) → ρ → Prop) :
    Prop where
  access_row : ∀ {p placed n}, Tracks p placed → Accessible placed n →
    ∃ p', m.access_row n p = .ok p' ∧ Tracks p' placed
  move_row_in : ∀ {callbacks row inc s s' res n p placed placed'}, Tracks p placed →
    callbacks.move_from_partition_to_shared_region row inc s = some (s', res, n) →
    Places row placed placed' res n →
    ∃ p', m.move_row_in callbacks row inc s p = .ok (s', p', res) ∧ Tracks p' placed'
  move_row_out : ∀ {callbacks under_budget fuel s p} {inv : σ → Prop}
    {placed : σ → ρ → Option β}, TakesAway inv placed callbacks → inv s → Tracks p (placed s) →
    m.move_row_out callbacks under_budget fuel s p = .error .fuel ∨
      ∃ s' p' ret, m.move_row_out callbacks under_budget fuel s p = .ok (s', p', ret) ∧
        MovesOut callbacks s s' ∧ inv s' ∧ Tracks p' (placed s')
  delete_specific_row_and_move_out : ∀ {callbacks row is_delete_local s s' p placed},
    Tracks p placed →
    callbacks.delete_and_update_next_key_info row is_delete_local s
      = (s', ⟨true, (placed row).isSome, (placed row).map (row, ·)⟩) →
    Deletable placed row →
    ∃ p', m.delete_specific_row_and_move_out callbacks row is_delete_local s p =
      .ok (s', p', true) ∧
      Tracks p' (update placed row none)

end Tigon.Pasha
