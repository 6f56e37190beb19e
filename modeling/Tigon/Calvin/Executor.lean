import Mathlib.Data.Fintype.Basic
import Tigon.Protocol.LockWord

namespace Tigon.Calvin

open Function

open Tigon.Library Tigon.Protocol.LockWord

-- The replica groups that the constructor of CalvinPartitioner is given; it checks the
-- sizes and that they add up to the number of coordinators.
structure Config where
  replica_group_sizes : List Nat
  sizes_pos : ∀ size ∈ replica_group_sizes, 0 < size

def Config.coordinator_num (config : Config) : Nat := config.replica_group_sizes.sum

abbrev Coordinator (config : Config) := Fin config.coordinator_num

def replicaGroup (coordinator_id : Nat) : Nat → List Nat → Nat × Nat
  | _, [] => (0, 0)
  | size, group :: groups =>
    if coordinator_id < size + group then (size, group)
    else replicaGroup coordinator_id (size + group) groups

theorem replicaGroup_spec (coordinator_id size : Nat) (groups : List Nat)
    (hlow : size ≤ coordinator_id) (hhigh : coordinator_id < size + groups.sum) :
    0 < (replicaGroup coordinator_id size groups).2 ∧
      (replicaGroup coordinator_id size groups).1 + (replicaGroup coordinator_id size groups).2
        ≤ size + groups.sum := by
  induction groups generalizing size with
  | nil => simp at hhigh; omega
  | cons group groups ih =>
    rw [List.sum_cons] at hhigh ⊢
    rw [replicaGroup]
    split
    · simp only
      omega
    · obtain ⟨hpos, hle⟩ := ih (size + group) (by omega) (by omega)
      exact ⟨hpos, by omega⟩

def master_coordinator (config : Config) (coordinator_id : Coordinator config)
    (partition_id : Nat) : Coordinator config :=
  let group := replicaGroup coordinator_id 0 config.replica_group_sizes
  ⟨partition_id % group.2 + group.1, by
    have hid : coordinator_id.val < 0 + config.replica_group_sizes.sum := by
      rw [Nat.zero_add]; exact coordinator_id.isLt
    obtain ⟨hpos, hle⟩ := replicaGroup_spec coordinator_id 0 _ (Nat.zero_le _) hid
    have hmod := Nat.mod_lt partition_id hpos
    have hnum : config.coordinator_num = config.replica_group_sizes.sum := rfl
    simp only [group]
    omega⟩

structure RowKey (κ : Type) where
  table_id : Nat
  partition_id : Nat
  key : κ
deriving DecidableEq

-- Which of the bits local_index_read, read_lock and write_lock a key carries:
-- search_local_index, search_for_read and search_for_update each set one.
inductive Access
  | local_index_read
  | read_lock
  | write_lock
deriving DecidableEq

structure CalvinRWKey (κ : Type) where
  row : RowKey κ
  access : Access
deriving DecidableEq

namespace CalvinRWKey

variable {κ : Type}

def get_read_lock_bit (key : CalvinRWKey κ) : Bool := key.access == .read_lock

def get_write_lock_bit (key : CalvinRWKey κ) : Bool := key.access == .write_lock

end CalvinRWKey

structure TransactionLockRequest (config : Config) (κ : Type) where
  source_coordinator : Coordinator config
  tid : Nat
  keys : List (CalvinRWKey κ)
deriving DecidableEq

namespace TransactionLockRequest

variable {config : Config} {κ : Type}

def empty (request : TransactionLockRequest config κ) : Bool := request.keys.isEmpty

def add_key (request : TransactionLockRequest config κ) (key : CalvinRWKey κ) :
    TransactionLockRequest config κ :=
  { request with keys := request.keys ++ [key] }

end TransactionLockRequest

-- A transaction after prepare_transaction, which stops the process at an empty read set.
structure CalvinTransaction (κ : Type) where
  transaction_id : Nat
  readSet : List (CalvinRWKey κ)
  readSet_ne : readSet ≠ []
  abort_no_retry : Bool := false
  processed : Bool := false
  votes : List Bool := []
deriving DecidableEq

abbrev Rows (κ : Type) := RowKey κ → Word

section

variable {config : Config} {κ : Type}

def addReadKey (coordinator_id : Coordinator config) (transaction_id : Nat)
    (lock_request_for_coordinators : Coordinator config → TransactionLockRequest config κ)
    (readkey : CalvinRWKey κ) : Coordinator config → TransactionLockRequest config κ :=
  let target_coordinator := master_coordinator config coordinator_id readkey.row.partition_id
  let request :=
    if (lock_request_for_coordinators target_coordinator).empty then
      ⟨coordinator_id, transaction_id, []⟩
    else lock_request_for_coordinators target_coordinator
  update lock_request_for_coordinators target_coordinator (request.add_key readkey)

-- The array lock_request_for_coordinators. reset() has cleared it, and the other fields
-- of a request without keys are not read.
def analyze_active_coordinator (coordinator_id : Coordinator config)
    (transaction : CalvinTransaction κ) : Coordinator config → TransactionLockRequest config κ :=
  transaction.readSet.foldl (addReadKey coordinator_id transaction.transaction_id)
    (fun _ => ⟨coordinator_id, transaction.transaction_id, []⟩)

def CalvinTransaction.active (transaction : CalvinTransaction κ) : Bool :=
  !transaction.abort_no_retry && !transaction.processed

def send_lock_requests (coordinator_id : Coordinator config)
    (transactions : List (CalvinTransaction κ)) (target : Coordinator config) :
    List (TransactionLockRequest config κ) :=
  ((transactions.filter CalvinTransaction.active).map
    (fun transaction => analyze_active_coordinator coordinator_id transaction target)).filter
      (fun request => !request.empty)

-- A request that came by message has its keys rebuilt from read_or_write, which is the
-- write lock bit: an index read asks for a read lock here, and for a write lock at home.
def lock_request_handler (request : TransactionLockRequest config κ) :
    TransactionLockRequest config κ :=
  { request with keys := request.keys.map fun key =>
      ⟨key.row, if key.get_write_lock_bit then .write_lock else .read_lock⟩ }

-- A lock function spins while the word is taken; nobody else would free it, so the
-- lock manager does not come back (none).
def read_lock (old_value : Word) : Option Word :=
  if is_write_locked old_value || read_lock_num old_value == read_lock_max then none
  else some (addReader old_value)

def write_lock (old_value : Word) : Option Word :=
  if is_read_locked old_value || is_write_locked old_value then none
  else some (addWriter old_value)

variable [DecidableEq κ]

def canObtain (rows : Rows κ) (key : CalvinRWKey κ) : Bool :=
  if key.get_read_lock_bit then !is_write_locked (rows key.row)
  else !(is_write_locked (rows key.row) || is_read_locked (rows key.row))

-- None also when one of the two CHECKs behind the locks fails.
def lockKey (rows : Rows κ) (key : CalvinRWKey κ) : Option (Rows κ) :=
  if key.get_read_lock_bit then
    (read_lock (rows key.row)).bind fun value =>
      if is_read_locked value then some (update rows key.row value) else none
  else if is_write_locked (rows key.row) then some rows
  else (write_lock (rows key.row)).bind fun value =>
    if is_write_locked value then some (update rows key.row value) else none

-- The first loop of grant_locks_and_reply, with all_locks_obtained as its result.
def grantLocks (rows : Rows κ) :
    List (TransactionLockRequest config κ) → Option (Rows κ × List Bool)
  | [] => some (rows, [])
  | request :: requests =>
    if request.keys.all (canObtain rows) then
      (request.keys.foldlM lockKey rows).bind fun locked =>
        (grantLocks locked requests).map fun result => (result.1, true :: result.2)
    else
      (grantLocks rows requests).map fun result => (result.1, false :: result.2)

def releaseKey (rows : Rows κ) (key : CalvinRWKey κ) : Rows κ :=
  if key.get_read_lock_bit then update rows key.row (dropReader (rows key.row))
  else if is_write_locked (rows key.row) then
    update rows key.row (dropWriter (rows key.row))
  else rows

-- The second loop of grant_locks_and_reply.
def releaseLocks (rows : Rows κ) (granted : List (TransactionLockRequest config κ × Bool)) :
    Rows κ :=
  granted.foldl (fun rows request =>
    if request.2 then request.1.keys.foldl releaseKey rows else rows) rows

structure LockResponse (config : Config) where
  source_coordinator : Coordinator config
  tid : Nat
  success : Bool

def grant_locks_and_reply (rows : Rows κ) (batch : List (TransactionLockRequest config κ)) :
    Option (Rows κ × List (LockResponse config)) :=
  let sorted := batch.mergeSort (fun lhs rhs => lhs.tid ≤ rhs.tid)
  (grantLocks rows sorted).map fun result =>
    (releaseLocks result.1 (sorted.zip result.2),
      (sorted.zip result.2).map fun request =>
        ⟨request.1.source_coordinator, request.1.tid, request.2⟩)

end

section

variable {config : Config} {κ : Type}

-- send_lock_requests enters every transaction into the map; operator[] of a missing
-- tid would give 0.
def tid_to_txn_idx (transactions : List (CalvinTransaction κ)) (tid : Nat) : Nat :=
  transactions.zipIdx.foldl (fun idx entry =>
    if entry.1.transaction_id = tid then entry.2 else idx) 0

def collect_vote_for_txn (transactions : List (CalvinTransaction κ))
    (response : LockResponse config) : List (CalvinTransaction κ) :=
  transactions.modify (tid_to_txn_idx transactions response.tid)
    fun transaction => { transaction with votes := transaction.votes ++ [response.success] }

def need_vote_count (coordinator_id : Coordinator config) (txn : CalvinTransaction κ) : Nat :=
  (List.finRange config.coordinator_num).countP
    fun i => !(analyze_active_coordinator coordinator_id txn i).empty

def good_vote_count (txn : CalvinTransaction κ) : Nat := txn.votes.countP id

def hasAllVotes (coordinator_id : Coordinator config) (txn : CalvinTransaction κ) : Bool :=
  good_vote_count txn == need_vote_count coordinator_id txn

def schedule_transactions (coordinator_id : Coordinator config)
    (transactions : List (CalvinTransaction κ)) :
    List (CalvinTransaction κ) × List (CalvinTransaction κ) :=
  (transactions.filter (fun txn => txn.active && hasAllVotes coordinator_id txn),
    transactions.map fun txn =>
      if txn.active && !hasAllVotes coordinator_id txn then { txn with votes := [] } else txn)

structure Executor (κ : Type) where
  transactions : List (CalvinTransaction κ)
  rows : Rows κ

abbrev Cluster (config : Config) (κ : Type) := Coordinator config → Executor κ

-- In which order the messages of a round come in at each coordinator. The stages of a
-- round are separated by barriers, so no message comes late.
structure Network (config : Config) (κ : Type) where
  requests : Coordinator config → List (TransactionLockRequest config κ) →
    List (TransactionLockRequest config κ)
  requests_perm : ∀ c sent, (requests c sent).Perm sent
  responses : Coordinator config → List (LockResponse config) → List (LockResponse config)
  responses_perm : ∀ c sent, (responses c sent).Perm sent

namespace Cluster

def requestsTo (cluster : Cluster config κ) (target : Coordinator config) :
    List (TransactionLockRequest config κ) :=
  (List.finRange config.coordinator_num).flatMap fun source =>
    (send_lock_requests source (cluster source).transactions target).map
      (if source = target then id else lock_request_handler)

variable [DecidableEq κ]

def granted (network : Network config κ) (cluster : Cluster config κ) (c : Coordinator config) :
    Option (Rows κ × List (LockResponse config)) :=
  grant_locks_and_reply (cluster c).rows (network.requests c (cluster.requestsTo c))

-- The scheduled transactions of every coordinator and the cluster behind the round;
-- none when a lock manager does not come back.
def round (network : Network config κ) (cluster : Cluster config κ) :
    Option ((Coordinator config → List (CalvinTransaction κ)) × Cluster config κ) :=
  if h : ∀ c, (cluster.granted network c).isSome then
    let replies := fun c => (cluster.granted network c).get (h c)
    let responses := fun source =>
      network.responses source ((List.finRange config.coordinator_num).flatMap fun c =>
        (replies c).2.filter fun response => response.source_coordinator = source)
    let scheduled := fun c => schedule_transactions c
      ((responses c).foldl collect_vote_for_txn (cluster c).transactions)
    some (fun c => (scheduled c).1, fun c => ⟨(scheduled c).2, (replies c).1⟩)
  else none

end Cluster

end

end Tigon.Calvin
