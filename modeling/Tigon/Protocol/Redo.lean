import Mathlib.Data.List.FinRange

namespace Tigon.Protocol

structure Partitioner where
  coordinator_num : Nat
  coordinator_id : Fin coordinator_num
  master_coordinator : Nat → Fin coordinator_num

-- An element of a write, insert or delete set; `key` is compared by its address.
structure RWKey where
  table_id : Nat
  partition_id : Nat
  key : Nat
  value : Nat
deriving DecidableEq

-- An element of the read set. `validates` is what the check of its tid (Silo) or
-- `renew_lease` (Sundial, SundialPasha) answers when it is made.
structure ReadKey where
  partition_id : Nat
  key : Nat
  local_index_read : Bool
  rts : Nat
  validates : Bool
deriving DecidableEq

-- A transaction that is ready to commit. `abort_lock` is set during the execution or by
-- `lock_write_set`.
structure RedoTransaction where
  is_single_partition : Bool
  abort_lock : Bool
  commit_ts : Nat
  readSet : List ReadKey
  writeSet : List RWKey
  insertSet : List RWKey
  deleteSet : List RWKey
deriving DecidableEq

inductive LogType
  | write
  | insert
  | delete
deriving DecidableEq

structure Redo (n : Nat) where
  coordinator : Fin n
  log_type : LogType
  key : RWKey
deriving DecidableEq

def Redo.element {n : Nat} (r : Redo n) : LogType × RWKey := (r.log_type, r.key)

inductive Kind
  | Silo
  | Sundial
  | SundialPasha
deriving DecidableEq

structure Outcome (n : Nat) where
  committed : Bool
  log : List (Redo n)
deriving DecidableEq

-- What `validate_read_set_and_redo` has done at some point: the records written, and the
-- coordinators that are to validate and to log their part, but have not answered.
structure Progress (n : Nat) where
  log : List (Redo n)
  abort_read_validation : Bool
  asked : List (Fin n)
deriving DecidableEq

namespace RedoTransaction

variable (kind : Kind) (p : Partitioner) (txn : RedoTransaction)

def isKeyInWriteSet (key : Nat) : Bool := txn.writeSet.any fun writeKey => writeKey.key = key

-- Sundial does not validate a read whose lease reaches as far as commit_ts.
def needsValidation (readKey : ReadKey) : Bool :=
  !readKey.local_index_read && !txn.isKeyInWriteSet readKey.key &&
    (kind = .Silo || txn.commit_ts > readKey.rts)

def readsToValidate : List ReadKey := txn.readSet.filter (txn.needsValidation kind)

def validated (keys : List ReadKey) : Bool := keys.all ReadKey.validates

def readSetGroup (i : Fin p.coordinator_num) : List ReadKey :=
  (txn.readsToValidate kind).filter fun readKey => p.master_coordinator readKey.partition_id = i

def writeSetGroup (i : Fin p.coordinator_num) : List RWKey :=
  txn.writeSet.filter fun writeKey => p.master_coordinator writeKey.partition_id = i

def redo {n : Nat} (i : Fin n) (log_type : LogType) (keys : List RWKey) : List (Redo n) :=
  keys.map fun key => ⟨i, log_type, key⟩

def insertsAndDeletes : List (Redo p.coordinator_num) :=
  redo p.coordinator_id .insert txn.insertSet ++ redo p.coordinator_id .delete txn.deleteSet

-- The path for one partition. Silo does not look at the outcome before it logs.
def validateSingle : Outcome p.coordinator_num :=
  let success := validated (txn.readsToValidate kind)
  let writes := redo p.coordinator_id .write txn.writeSet
  match kind with
  | .Silo => ⟨success, writes⟩
  | _ => ⟨success,
      if success && !txn.abort_lock then writes ++ txn.insertsAndDeletes p else []⟩

def askCoordinator (st : Progress p.coordinator_num) (i : Fin p.coordinator_num) :
    Progress p.coordinator_num :=
  if st.abort_read_validation then st
  else if i = p.coordinator_id then
    { st with
      abort_read_validation := !validated (txn.readSetGroup kind p i)
      log := st.log ++ redo i .write (txn.writeSetGroup p i) }
  else if (txn.readSetGroup kind p i).isEmpty && (txn.writeSetGroup p i).isEmpty then st
  else { st with asked := st.asked ++ [i] }

-- A coordinator's `read_validation_and_redo_request_handler` logs its part and its vote,
-- whatever the vote is; then the response.
def answer (st : Progress p.coordinator_num) (i : Fin p.coordinator_num) :
    Progress p.coordinator_num :=
  { st with
    log := st.log ++ redo i .write (txn.writeSetGroup p i)
    abort_read_validation := st.abort_read_validation || !validated (txn.readSetGroup kind p i) }

def prepare : Progress p.coordinator_num :=
  (List.finRange p.coordinator_num).foldl (txn.askCoordinator kind p) ⟨[], false, []⟩

def sync : Progress p.coordinator_num :=
  (txn.prepare kind p).asked.foldl (txn.answer kind p) (txn.prepare kind p)

-- One round of the loop over coordinators in SundialPasha: everything is logged at home.
def validateCoordinator (st : Progress p.coordinator_num) (i : Fin p.coordinator_num) :
    Progress p.coordinator_num :=
  if st.abort_read_validation then st
  else if validated (txn.readSetGroup .SundialPasha p i) then
    { st with log := st.log ++ redo p.coordinator_id .write (txn.writeSetGroup p i)
        ++ txn.insertsAndDeletes p }
  else { st with abort_read_validation := true }

def validateAll : Progress p.coordinator_num :=
  (List.finRange p.coordinator_num).foldl (txn.validateCoordinator p) ⟨[], false, []⟩

def validateMulti : Outcome p.coordinator_num :=
  match kind with
  | .Silo =>
    let st := txn.sync .Silo p
    ⟨!st.abort_read_validation, st.log⟩
  | .Sundial =>
    let st := txn.sync .Sundial p
    ⟨!st.abort_read_validation,
      if st.abort_read_validation then st.log else st.log ++ txn.insertsAndDeletes p⟩
  | .SundialPasha =>
    let st := txn.validateAll p
    ⟨!st.abort_read_validation, st.log⟩

def validate_read_set_and_redo : Outcome p.coordinator_num :=
  if txn.is_single_partition then txn.validateSingle kind p else txn.validateMulti kind p

def commit : Outcome p.coordinator_num :=
  if txn.abort_lock then ⟨false, []⟩ else txn.validate_read_set_and_redo kind p

def writes : List (LogType × RWKey) := txn.writeSet.map (LogType.write, ·)

def elements : List (LogType × RWKey) :=
  txn.writes ++ txn.insertSet.map (LogType.insert, ·) ++ txn.deleteSet.map (LogType.delete, ·)

-- Silo has no insert set and no delete set.
def expected : List (LogType × RWKey) :=
  match kind with
  | .Silo => txn.writes
  | _ => txn.elements

end RedoTransaction

end Tigon.Protocol
