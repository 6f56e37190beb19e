import Tigon.TwoPLPasha.Requests.Handlers
import Tigon.TwoPLPasha.Requests.Releases
import Tigon.TwoPLPasha.TransactionSystem

namespace Tigon.TwoPLPasha

open List Transaction Tigon.Library

variable {κ ρ : Type}

def Awaits (txn : Transaction κ ρ) : Pending → Prop
  | .read n => ∃ k, txn.readSet[n]? = some k ∧ k.Waiting
  | .scan n => ∃ k, txn.scanSet[n]? = some k ∧ k.Waiting
  | .insert n => ∃ k, txn.insertSet[n]? = some k ∧ k.Waiting

section Lists

variable {α : Type} {P : α → Prop} {l l' : List α} {n m : Nat} {a b : α}

theorem getElem?_of_extends (h : l <+: l') (ha : l[n]? = some a) : l'[n]? = some a := by
  obtain ⟨hn, rfl⟩ := List.getElem?_eq_some_iff.mp ha
  exact prefix_iff_getElem?.mp h n hn

theorem forall_mem_set (hl : ∀ a ∈ l, P a) (hb : P b) : ∀ a ∈ l.set n b, P a := by
  intro a ha
  rcases mem_or_eq_of_mem_set ha with ha | rfl
  · exact hl a ha
  · exact hb

theorem exists_getElem?_set (hn : n < l.length)
    (h : m = n ∧ P b ∨ m ≠ n ∧ ∃ a, l[m]? = some a ∧ P a) :
    ∃ a, (l.set n b)[m]? = some a ∧ P a := by
  rcases h with ⟨rfl, hb⟩ | ⟨hne, a, ha, hP⟩
  · exact ⟨b, List.getElem?_set_self hn, hb⟩
  · exact ⟨a, by rw [List.getElem?_set_ne hne.symm, ha], hP⟩

end Lists

theorem Awaits.extend {txn txn' : Transaction κ ρ} {p : Pending} (h : Awaits txn p)
    (hreads : txn.readSet <+: txn'.readSet) (hscans : txn.scanSet <+: txn'.scanSet)
    (hinserts : txn.insertSet <+: txn'.insertSet) : Awaits txn' p := by
  cases p with
  | read n =>
    obtain ⟨k, hk, hwaiting⟩ := h
    exact ⟨k, getElem?_of_extends hreads hk, hwaiting⟩
  | scan n =>
    obtain ⟨k, hk, hwaiting⟩ := h
    exact ⟨k, getElem?_of_extends hscans hk, hwaiting⟩
  | insert n =>
    obtain ⟨k, hk, hwaiting⟩ := h
    exact ⟨k, getElem?_of_extends hinserts hk, hwaiting⟩

structure Accounts (txn : Transaction κ ρ) (pending : List Pending)
    (ledger : Ledger (Resource ρ)) : Prop where
  sound : txn.Sound
  ledger : ledger = some txn.held
  nodup : pending.Nodup
  awaits : ∀ p ∈ pending, Awaits txn p

namespace Accounts

variable {txn : Transaction κ ρ} {pending pending' : List Pending} {ledger : Ledger (Resource ρ)}

section

variable (h : Accounts txn pending ledger)

include h

-- What an entry holds apart from the rest. It may be replaced by one that records what is
-- held then, if its own answer is no longer awaited or is awaited by the new entry.
theorem setRead {n : Nat} {k : ReadKey κ ρ} (hk : txn.readSet[n]? = some k) :
    ∃ rest, ledger = some (k.held + rest) ∧ ∀ k' : ReadKey κ ρ, k'.Sound → ∀ pending',
      (pending'.Nodup ∧ ∀ p ∈ pending', p = .read n ∧ k'.Waiting ∨ p ≠ .read n ∧ p ∈ pending) →
      Accounts { txn with readSet := txn.readSet.set n k' } pending' (some (k'.held + rest)) := by
  obtain ⟨rest, hsum, hset⟩ := exists_sum_map_set ReadKey.held hk
  refine ⟨rest + (txn.insertSet.map InsertKey.held).sum + (txn.scanSet.map ScanKey.held).sum, ?_,
    fun k' hsound pending' ⟨hnodup, hpending⟩ =>
      ⟨⟨forall_mem_set h.sound.reads hsound, h.sound.inserts, h.sound.scans⟩, ?_, hnodup, ?_⟩⟩
  · rw [h.ledger, held, hsum]
    simp only [add_assoc]
  · rw [held, hset]
    simp only [add_assoc]
  · intro p hp
    have hlt := (List.getElem?_eq_some_iff.mp hk).1
    cases p with
    | read m =>
      refine exists_getElem?_set hlt ?_
      rcases hpending _ hp with ⟨heq, hwaiting⟩ | ⟨hne, hp⟩
      · exact .inl ⟨Pending.read.inj heq, hwaiting⟩
      · exact .inr ⟨fun heq => hne (congrArg _ heq), h.awaits _ hp⟩
    | scan m | insert m =>
      rcases hpending _ hp with ⟨⟨⟩, -⟩ | ⟨-, hp⟩
      exact h.awaits _ hp

theorem setScan {n : Nat} {k : ScanKey ρ} (hk : txn.scanSet[n]? = some k) :
    ∃ rest, ledger = some (k.held + rest) ∧ ∀ k' : ScanKey ρ, k'.Sound → ∀ pending',
      (pending'.Nodup ∧ ∀ p ∈ pending', p = .scan n ∧ k'.Waiting ∨ p ≠ .scan n ∧ p ∈ pending) →
      Accounts { txn with scanSet := txn.scanSet.set n k' } pending' (some (k'.held + rest)) := by
  obtain ⟨rest, hsum, hset⟩ := exists_sum_map_set ScanKey.held hk
  refine ⟨(txn.readSet.map ReadKey.held).sum + (txn.insertSet.map InsertKey.held).sum + rest, ?_,
    fun k' hsound pending' ⟨hnodup, hpending⟩ =>
      ⟨⟨h.sound.reads, h.sound.inserts, forall_mem_set h.sound.scans hsound⟩, ?_, hnodup, ?_⟩⟩
  · rw [h.ledger, held, hsum, add_left_comm]
  · rw [held, hset, add_left_comm]
  · intro p hp
    have hlt := (List.getElem?_eq_some_iff.mp hk).1
    cases p with
    | read m | insert m =>
      rcases hpending _ hp with ⟨⟨⟩, -⟩ | ⟨-, hp⟩
      exact h.awaits _ hp
    | scan m =>
      refine exists_getElem?_set hlt ?_
      rcases hpending _ hp with ⟨heq, hwaiting⟩ | ⟨hne, hp⟩
      · exact .inl ⟨Pending.scan.inj heq, hwaiting⟩
      · exact .inr ⟨fun heq => hne (congrArg _ heq), h.awaits _ hp⟩

theorem setInsert {n : Nat} {k : InsertKey κ ρ} (hk : txn.insertSet[n]? = some k) :
    ∃ rest, ledger = some (k.held + rest) ∧ ∀ k' : InsertKey κ ρ, k'.Sound → ∀ pending',
      (pending'.Nodup ∧
        ∀ p ∈ pending', p = .insert n ∧ k'.Waiting ∨ p ≠ .insert n ∧ p ∈ pending) →
      Accounts { txn with insertSet := txn.insertSet.set n k' } pending'
        (some (k'.held + rest)) := by
  obtain ⟨rest, hsum, hset⟩ := exists_sum_map_set InsertKey.held hk
  refine ⟨(txn.readSet.map ReadKey.held).sum + rest + (txn.scanSet.map ScanKey.held).sum, ?_,
    fun k' hsound pending' ⟨hnodup, hpending⟩ =>
      ⟨⟨h.sound.reads, forall_mem_set h.sound.inserts hsound, h.sound.scans⟩, ?_, hnodup, ?_⟩⟩
  · rw [h.ledger, held, hsum]
    ac_rfl
  · rw [held, hset]
    ac_rfl
  · intro p hp
    have hlt := (List.getElem?_eq_some_iff.mp hk).1
    cases p with
    | read m | scan m =>
      rcases hpending _ hp with ⟨⟨⟩, -⟩ | ⟨-, hp⟩
      exact h.awaits _ hp
    | insert m =>
      refine exists_getElem?_set hlt ?_
      rcases hpending _ hp with ⟨heq, hwaiting⟩ | ⟨hne, hp⟩
      · exact .inl ⟨Pending.insert.inj heq, hwaiting⟩
      · exact .inr ⟨fun heq => hne (congrArg _ heq), h.awaits _ hp⟩

theorem addRead (request : SearchType) (key : κ) (has_master_partition : Bool) :
    Accounts { txn with readSet := txn.readSet ++ [.start request key has_master_partition] }
      pending ledger := by
  have hsound : (ReadKey.start request key has_master_partition : ReadKey κ ρ).Sound :=
    ReadKey.sound_of_unlocked rfl rfl nofun
  refine ⟨⟨forall_mem_append.mpr ⟨h.sound.reads, forall_mem_singleton.mpr hsound⟩,
    h.sound.inserts, h.sound.scans⟩, ?_, h.nodup, fun p hp => ?_⟩
  · have hheld : (ReadKey.start request key has_master_partition : ReadKey κ ρ).held = 0 :=
      ReadKey.held_of_idle rfl rfl rfl
    rw [h.ledger, held, held, map_append, sum_append,
      map_singleton, sum_singleton, hheld, add_zero]
  · exact (h.awaits p hp).extend (prefix_append ..) (prefix_refl _)
      (prefix_refl _)

theorem addScan (type : ScanType) {has_master_partition read_on_replica : Bool}
    (hreplica : has_master_partition = true ∨ read_on_replica = false) :
    Accounts { txn with scanSet := txn.scanSet ++
      [.start type has_master_partition read_on_replica] } pending ledger := by
  have hlocal : (ScanKey.start type has_master_partition read_on_replica : ScanKey ρ).local_scan
      = has_master_partition := by
    rcases hreplica with rfl | rfl
    · rfl
    · exact Bool.or_false _
  have hsound : (ScanKey.start type has_master_partition read_on_replica : ScanKey ρ).Sound :=
    ⟨fun _ => rfl, nofun, nofun, by nofun, hlocal⟩
  refine ⟨⟨h.sound.reads, h.sound.inserts,
    forall_mem_append.mpr ⟨h.sound.scans, forall_mem_singleton.mpr hsound⟩⟩, ?_,
    h.nodup, fun p hp => ?_⟩
  · have hheld : (ScanKey.start type has_master_partition read_on_replica : ScanKey ρ).held = 0 :=
      tuplesOf_nil _ _
    rw [h.ledger, held, held, map_append, sum_append,
      map_singleton, sum_singleton, hheld, add_zero]
  · exact (h.awaits p hp).extend (prefix_refl _) (prefix_append ..)
      (prefix_refl _)

theorem addInsert (key : κ) {has_master_partition read_on_replica require_lock_next_row : Bool}
    (hreplica : require_lock_next_row = true → has_master_partition = true ∨
      read_on_replica = false) :
    Accounts { txn with insertSet := txn.insertSet ++
      [.start key has_master_partition read_on_replica require_lock_next_row] }
      pending ledger := by
  have hsound : (InsertKey.start key has_master_partition read_on_replica require_lock_next_row :
      InsertKey κ ρ).Sound := by
    refine ⟨fun _ => rfl, nofun, nofun, fun _ => rfl, nofun, fun hrequire => ?_⟩
    rcases hreplica hrequire with rfl | rfl
    · rfl
    · exact Bool.or_false _
  refine ⟨⟨h.sound.reads,
    forall_mem_append.mpr ⟨h.sound.inserts, forall_mem_singleton.mpr hsound⟩,
    h.sound.scans⟩, ?_, h.nodup, fun p hp => ?_⟩
  · have hheld : (InsertKey.start key has_master_partition read_on_replica require_lock_next_row :
        InsertKey κ ρ).held = 0 := InsertKey.held_of_idle rfl rfl
    rw [h.ledger, held, held, map_append, sum_append,
      map_singleton, sum_singleton, hheld, add_zero]
  · exact (h.awaits p hp).extend (prefix_refl _) (prefix_refl _)
      (prefix_append ..)

end

end Accounts

end Tigon.TwoPLPasha
