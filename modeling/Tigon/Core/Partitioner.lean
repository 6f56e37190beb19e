import Tigon.Library.CyclicInterval

namespace Tigon.Core

open Tigon.Library

-- The constructor's CHECK is carried by the record.
structure HashReplicatedPartitioner (N : Nat) where
  coordinator_num : Nat
  replica_pos : 0 < N
  replica_le : N ≤ coordinator_num

namespace HashReplicatedPartitioner

variable {N : Nat} (p : HashReplicatedPartitioner N)

def master_coordinator (partition_id : Nat) : Nat :=
  partition_id % p.coordinator_num

def get_ith_replica_coordinator (partition_id ith : Nat) : Nat :=
  let first_replica := p.master_coordinator partition_id
  if ith = 0 then
    first_replica
  else
    let last_replica := (first_replica + N - 1) % p.coordinator_num
    if last_replica ≥ first_replica then first_replica + ith
    else (first_replica + ith) % p.coordinator_num

def pushUpTo (first last : Nat) : List Nat :=
  List.range' first (last + 1 - first)

def pushBelow (first bound : Nat) : List Nat :=
  List.range' first (bound - first)

def get_replica_coordinators (partition_id : Nat) : List Nat :=
  let first_replica := p.master_coordinator partition_id
  let last_replica := (first_replica + N - 1) % p.coordinator_num
  if last_replica ≥ first_replica then
    pushUpTo first_replica last_replica
  else
    pushBelow first_replica p.coordinator_num ++ pushUpTo 0 last_replica

def is_partition_replicated_on (partition_id coordinator_id : Nat) : Bool :=
  let first_replica := p.master_coordinator partition_id
  let last_replica := (first_replica + N - 1) % p.coordinator_num
  if last_replica ≥ first_replica then
    decide (first_replica ≤ coordinator_id) && decide (coordinator_id ≤ last_replica)
  else
    decide (coordinator_id ≥ first_replica) || decide (coordinator_id ≤ last_replica)

theorem coordinator_num_pos : 0 < p.coordinator_num :=
  lt_of_lt_of_le p.replica_pos p.replica_le

theorem master_coordinator_lt (partition_id : Nat) :
    p.master_coordinator partition_id < p.coordinator_num :=
  Nat.mod_lt _ p.coordinator_num_pos

-- With `first` the master, the replicas either end before the last coordinator, or
-- wrap around and end in front of the master. No sum exceeds twice the number of
-- coordinators, so a size_t holds it.
theorem last_replica_cases (partition_id : Nat) :
    let first := p.master_coordinator partition_id
    let last := (first + N - 1) % p.coordinator_num
    (first + N ≤ p.coordinator_num ∧ last = first + N - 1)
      ∨ (p.coordinator_num < first + N ∧ last = first + N - 1 - p.coordinator_num
        ∧ last < first) := by
  intro first last
  have hpos := p.replica_pos
  have hle := p.replica_le
  have hfirst : first < p.coordinator_num := p.master_coordinator_lt partition_id
  by_cases hwrap : first + N ≤ p.coordinator_num
  · left
    exact ⟨hwrap, Nat.mod_eq_of_lt (by omega)⟩
  · right
    have hlast : last = first + N - 1 - p.coordinator_num := by
      simp only [last]
      rw [Nat.mod_eq_sub_mod (by omega)]
      exact Nat.mod_eq_of_lt (by omega)
    exact ⟨by omega, hlast, by omega⟩

theorem get_replica_coordinators_eq (partition_id : Nat) :
    p.get_replica_coordinators partition_id
      = cyclicInterval p.coordinator_num (p.master_coordinator partition_id) N := by
  have hpos := p.replica_pos
  have hfirst := p.master_coordinator_lt partition_id
  simp only [get_replica_coordinators, pushUpTo, pushBelow]
  rcases p.last_replica_cases partition_id with ⟨hle, hlast⟩ | ⟨hgt, hlast, hlt⟩
  · rw [if_pos (by omega), hlast, cyclicInterval_of_le hle]
    congr 1
    omega
  · rw [if_neg (by omega), hlast, cyclicInterval_of_ge hfirst (by omega) p.replica_le]
    congr 2
    omega

theorem get_ith_replica_coordinator_eq (partition_id : Nat) {ith : Nat} (hith : ith < N) :
    p.get_ith_replica_coordinator partition_id ith
      = (p.master_coordinator partition_id + ith) % p.coordinator_num := by
  have hfirst := p.master_coordinator_lt partition_id
  simp only [get_ith_replica_coordinator]
  by_cases hzero : ith = 0
  · rw [if_pos hzero, hzero, add_zero, Nat.mod_eq_of_lt hfirst]
  · rw [if_neg hzero]
    rcases p.last_replica_cases partition_id with ⟨hle, hlast⟩ | ⟨hgt, hlast, hlt⟩
    · rw [if_pos (by omega), Nat.mod_eq_of_lt (by omega)]
    · rw [if_neg (by omega)]

theorem is_partition_replicated_on_iff (partition_id : Nat) {c : Nat}
    (hc : c < p.coordinator_num) :
    p.is_partition_replicated_on partition_id c = true
      ↔ c ∈ p.get_replica_coordinators partition_id := by
  have hpos := p.replica_pos
  simp only [is_partition_replicated_on, get_replica_coordinators, pushUpTo, pushBelow]
  rcases p.last_replica_cases partition_id with ⟨hle, hlast⟩ | ⟨hgt, hlast, hlt⟩
  · rw [if_pos (by omega), if_pos (by omega)]
    simp only [Bool.and_eq_true, decide_eq_true_eq, List.mem_range'_1]
    omega
  · rw [if_neg (by omega), if_neg (by omega)]
    simp only [Bool.or_eq_true, decide_eq_true_eq, List.mem_append, List.mem_range'_1]
    omega

theorem replica_placement (partition_id : Nat) :
    (p.get_replica_coordinators partition_id).length = N
    ∧ (p.get_replica_coordinators partition_id).Nodup
    ∧ (∀ c ∈ p.get_replica_coordinators partition_id, c < p.coordinator_num)
    ∧ (p.get_replica_coordinators partition_id).head?
        = some (p.master_coordinator partition_id)
    ∧ (∀ i < N, (p.get_replica_coordinators partition_id)[i]?
        = some ((p.master_coordinator partition_id + i) % p.coordinator_num))
    ∧ (∀ c < p.coordinator_num, c ∈ p.get_replica_coordinators partition_id
        ↔ p.is_partition_replicated_on partition_id c = true)
    ∧ ∀ i < N, (p.get_replica_coordinators partition_id)[i]?
        = some (p.get_ith_replica_coordinator partition_id i) := by
  have hith : ∀ i < N, (p.get_replica_coordinators partition_id)[i]?
      = some ((p.master_coordinator partition_id + i) % p.coordinator_num) := by
    intro i hi
    rw [get_replica_coordinators_eq, getElem?_cyclicInterval hi]
  refine ⟨?_, ?_, ?_, ?_, hith, ?_, ?_⟩
  · rw [get_replica_coordinators_eq, length_cyclicInterval]
  · rw [get_replica_coordinators_eq]
    exact nodup_cyclicInterval p.replica_le
  · intro c hc
    rw [get_replica_coordinators_eq] at hc
    exact lt_of_mem_cyclicInterval p.coordinator_num_pos hc
  · rw [List.head?_eq_getElem?, hith 0 p.replica_pos, add_zero,
      Nat.mod_eq_of_lt (p.master_coordinator_lt partition_id)]
  · intro c hc
    exact (p.is_partition_replicated_on_iff partition_id hc).symm
  · intro i hi
    rw [hith i hi, p.get_ith_replica_coordinator_eq partition_id hi]

example : (⟨3, by decide, by decide⟩ : HashReplicatedPartitioner 2).get_replica_coordinators 5
    = [2, 0] := by decide

end HashReplicatedPartitioner

end Tigon.Core
