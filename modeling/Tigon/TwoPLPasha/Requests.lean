import Tigon.Library.Ledger
import Tigon.TwoPLPasha.Transaction

namespace Tigon.TwoPLPasha

open Tigon.Library

-- What a transaction can hold of a row: its lock, and a count that keeps the row in
-- shared memory.
inductive Resource (ρ : Type)
  | lock (kind : LockKind) (row : ρ)
  | ref_cnt (row : ρ)
deriving DecidableEq

def Resource.row {ρ : Type} : Resource ρ → ρ
  | lock _ row | ref_cnt row => row

section

variable {κ ρ : Type} [DecidableEq ρ]

-- What a call does to the locks and counts of the transaction that makes it. A release
-- through a null pointer, or through one of the other sort, hits memory that is not a row
-- the transaction holds.
def Call.apply (cxl_index : κ → Option ρ) (ledger : Ledger (Resource ρ)) :
    Call κ ρ → Ledger (Resource ρ)
  | .lock_release remote kind (some ptr) _ =>
    if ptr.fits remote then ledger.give (.lock kind ptr.row) else none
  | .lock_release _ _ none _ => none
  | .release_migrated_row key =>
    match cxl_index key with
    | some row => ledger.give (.ref_cnt row)
    | none => none
  | .decrease_reference_count_via_ptr (some ptr) =>
    if ptr.fits true then ledger.give (.ref_cnt ptr.row) else none
  | .decrease_reference_count_via_ptr none => none
  | .remove _ => ledger

end

-- How a request leaves its handler: done, waiting for the owner's answer, or failed.
inductive Progress
  | done
  | sent
  | failed
deriving DecidableEq

structure Handled (E ρ : Type) where
  entry : E
  ledger : Ledger (Resource ρ)
  progress : Progress

-- What a point request meets: the row in the local index, the valid flag of the shared
-- row, and whether the lock is granted and with which tid.
structure PointAnswer (ρ : Type) where
  row : Option ρ
  valid : Bool
  success : Bool
  tid : Word
deriving DecidableEq

section Point

variable {κ ρ : Type}

def get_migrated_row (cxl_index : κ → Option ρ) (key : κ) (valid : Bool) : Option ρ :=
  (cxl_index key).filter fun _ => valid

namespace ReadKey

def start (request : SearchType) (key : κ) (has_master_partition : Bool) : ReadKey κ ρ where
  key := key
  request := request
  has_master_partition := has_master_partition
  processed := false
  read_lock_bit := false
  write_lock_bit := false
  tid := 0
  cached_local_row := none
  cached_migrated_row := none
  reference_counted := false

def kind (k : ReadKey κ ρ) : LockKind :=
  if k.request.write_lock_request_bit then .write else .read

def setLockBits (k : ReadKey κ ρ) (tid : Word) (read write : Bool) : ReadKey κ ρ :=
  { k with
    tid := tid
    read_lock_bit := k.read_lock_bit || read
    write_lock_bit := k.write_lock_bit || write }

def succeed (k : ReadKey κ ρ) (tid : Word) : ReadKey κ ρ :=
  { k.setLockBits tid (k.request.read_lock_request_bit && !k.request.local_index_read_bit)
      k.request.write_lock_request_bit with
    processed := true }

def cacheLocal (k : ReadKey κ ρ) (row : Option ρ) : ReadKey κ ρ :=
  { k with cached_local_row := row, cached_migrated_row := none }

def cacheMigrated (k : ReadKey κ ρ) (row : ρ) : ReadKey κ ρ :=
  { k with cached_local_row := none, cached_migrated_row := some row, reference_counted := true }

-- One round of the first loop of `process_requests` with `lock_request_handler`. A row
-- that a local search does not find is dereferenced: there is no next state.
def process (k : ReadKey κ ρ) (cxl_index : κ → Option ρ) (answer : PointAnswer ρ)
    (ledger : Ledger (Resource ρ)) : Option (Handled (ReadKey κ ρ) ρ) :=
  if k.request.local_index_read_bit then
    some ⟨(k.cacheLocal none).succeed answer.tid, ledger, .done⟩
  else if k.has_master_partition then
    match answer.row with
    | some row =>
      if answer.success then
        some ⟨(k.cacheLocal (some row)).succeed answer.tid, ledger.take (.lock k.kind row), .done⟩
      else some ⟨k.cacheLocal (some row), ledger, .failed⟩
    | none => none
  else
    match get_migrated_row cxl_index k.key answer.valid with
    | some row =>
      -- the count is raised before the lock is tried and stays when the lock is refused
      let ledger := ledger.take (.ref_cnt row)
      if answer.success then
        some ⟨(k.cacheMigrated row).succeed answer.tid, ledger.take (.lock k.kind row), .done⟩
      else some ⟨k.cacheMigrated row, ledger, .failed⟩
    | none => some ⟨{ k with processed := true }, ledger, .sent⟩

-- `moved_in` is false when the owner has no memory for the row. Here the count is raised
-- together with the lock.
def data_migration_response (k : ReadKey κ ρ) (cxl_index : κ → Option ρ) (moved_in : Bool)
    (answer : PointAnswer ρ) (ledger : Ledger (Resource ρ)) : Handled (ReadKey κ ρ) ρ :=
  if moved_in = false then ⟨k, ledger, .failed⟩
  else
    match get_migrated_row cxl_index k.key answer.valid with
    | some row =>
      if answer.success then
        ⟨({ k with cached_migrated_row := some row, reference_counted := true }).setLockBits
            answer.tid k.request.read_lock_request_bit k.request.write_lock_request_bit,
          (ledger.take (.ref_cnt row)).take (.lock k.kind row), .done⟩
      else ⟨k, ledger, .failed⟩
    | none => ⟨k, ledger, .failed⟩

end ReadKey

end Point

-- A tuple that the index hands to a scan processor and that the processor does not skip:
-- whether it is the one after the range, whether its bits say that the neighbours the scan
-- needs are in shared memory, and whether its lock is granted.
structure ScanVisit (ρ : Type) where
  row : ρ
  locking_next_tuple : Bool
  neighboursReal : Bool
  success : Bool
deriving DecidableEq

structure Walk (ρ : Type) where
  scan_results : List (RowPtr ρ)
  next_row_entity : Option (RowPtr ρ)
  scan_success : Bool
  migration_required : Bool
  ledger : Ledger (Resource ρ)

section Scan

variable {ρ : Type}

def RowPtr.to (remote : Bool) (row : ρ) : RowPtr ρ := if remote then cxlRow row else localRow row

def lockTuple (remote : Bool) (kind : LockKind) (row : ρ) (ledger : Ledger (Resource ρ)) :
    Ledger (Resource ρ) :=
  let ledger := ledger.take (.lock kind row)
  if remote then ledger.take (.ref_cnt row) else ledger

-- The local and the remote scan processor over the tuples of the index.
def Walk.run (remote : Bool) (kind : LockKind) : Walk ρ → List (ScanVisit ρ) → Walk ρ
  | w, [] => w
  | w, v :: rest =>
    if remote && !v.neighboursReal then
      { w with scan_success := false, migration_required := true }
    else if v.success then
      let w := { w with ledger := lockTuple remote kind v.row w.ledger }
      if v.locking_next_tuple then
        { w with next_row_entity := some (.to remote v.row), scan_success := true }
      else Walk.run remote kind { w with scan_results := w.scan_results ++ [.to remote v.row] } rest
    else { w with scan_success := false }

namespace ScanKey

def start (type : ScanType) (has_master_partition read_on_replica : Bool) : ScanKey ρ where
  has_master_partition := has_master_partition
  read_on_replica := read_on_replica
  type := type
  processed := false
  scan_results := []
  next_row_entity := none
  is_next_row_locked := false

def local_scan (k : ScanKey ρ) : Bool := k.has_master_partition || k.read_on_replica

-- A local scan that meets no tuple succeeds, a remote one fails.
def walk (k : ScanKey ρ) (visits : List (ScanVisit ρ)) (ledger : Ledger (Resource ρ)) : Walk ρ :=
  Walk.run (!k.local_scan) k.type.kind
    { scan_results := k.scan_results
      next_row_entity := none
      scan_success := k.local_scan
      migration_required := false
      ledger := ledger } visits

-- What a remote scan gives back before it asks the owner to move the range in.
def unwind (κ : Type) (kind : LockKind) (scan_results : List (RowPtr ρ)) : List (Call κ ρ) :=
  scan_results.flatMap fun ptr =>
    [.lock_release true kind (some ptr) none, .decrease_reference_count_via_ptr (some ptr)]

-- One round of the second loop of `process_requests` with `scanRequestHandler`. The results
-- are those of the request, whatever becomes of it.
def process {κ : Type} [DecidableEq ρ] (k : ScanKey ρ) (cxl_index : κ → Option ρ)
    (visits : List (ScanVisit ρ)) (ledger : Ledger (Resource ρ)) : Handled (ScanKey ρ) ρ :=
  let w := k.walk visits ledger
  let migration_required := w.migration_required ||
    (!k.local_scan && w.scan_results.isEmpty && !w.scan_success)
  if migration_required then
    ⟨{ k with scan_results := [], processed := true },
      (unwind κ k.type.kind w.scan_results).foldl (Call.apply cxl_index) w.ledger, .sent⟩
  else if w.scan_success = false then
    ⟨{ k with scan_results := w.scan_results }, w.ledger, .failed⟩
  else
    ⟨{ k with
        scan_results := w.scan_results
        next_row_entity := w.next_row_entity
        is_next_row_locked := true
        processed := true }, w.ledger, .done⟩

def data_migration_response_for_scan (k : ScanKey ρ) (visits : List (ScanVisit ρ))
    (ledger : Ledger (Resource ρ)) : Handled (ScanKey ρ) ρ :=
  let w := Walk.run true k.type.kind
    { scan_results := k.scan_results
      next_row_entity := none
      scan_success := false
      migration_required := false
      ledger := ledger } visits
  if w.scan_success then
    ⟨{ k with
        scan_results := w.scan_results
        next_row_entity := w.next_row_entity
        is_next_row_locked := true }, w.ledger, .done⟩
  else ⟨{ k with scan_results := w.scan_results }, w.ledger, .failed⟩

end ScanKey

end Scan

-- What a local insert meets: whether the key is in the index already, the next row, and
-- whether its write lock is granted.
structure InsertAnswer (ρ : Type) where
  present : Bool
  next : Option ρ
  success : Bool
deriving DecidableEq

namespace InsertKey

variable {κ ρ : Type}

def start (key : κ) (has_master_partition read_on_replica require_lock_next_row : Bool) :
    InsertKey κ ρ where
  key := key
  has_master_partition := has_master_partition
  read_on_replica := read_on_replica
  processed := false
  require_lock_next_row := require_lock_next_row
  next_row_entity := none
  is_next_row_locked := false
  inserted_cxl_row := none
  reference_counted := false

def local_insert (k : InsertKey κ ρ) : Bool := k.has_master_partition || k.read_on_replica

def succeed (k : InsertKey κ ρ) (next_row_entity : Option (RowPtr ρ)) : InsertKey κ ρ :=
  if k.require_lock_next_row then
    { k with next_row_entity := next_row_entity, is_next_row_locked := true, processed := true }
  else { k with processed := true }

-- One round of the third loop of `process_requests` with `insertRequestHandler`. A remote
-- insert is left to the commit, with no next row.
def process (k : InsertKey κ ρ) (answer : InsertAnswer ρ) (ledger : Ledger (Resource ρ)) :
    Option (Handled (InsertKey κ ρ) ρ) :=
  if k.local_insert then
    if answer.present then some ⟨k, ledger, .failed⟩
    else if k.require_lock_next_row then
      match answer.next with
      | some row =>
        if answer.success then
          some ⟨k.succeed (some (.localRow row)), ledger.take (.lock .write row), .done⟩
        else some ⟨k, ledger, .failed⟩
      | none => none
    else some ⟨k.succeed none, ledger, .done⟩
  else some ⟨k.succeed none, ledger, .done⟩

-- The owner's `move_row_in` has counted `moved` for the requester, which looks the key up
-- in the CXL index and marks the row as valid: without a row there is no next state.
def remote_insert_response (k : InsertKey κ ρ) (cxl_index : κ → Option ρ) (moved : Option ρ)
    (ledger : Ledger (Resource ρ)) : Option (InsertKey κ ρ × Ledger (Resource ρ)) :=
  (cxl_index k.key).map fun cxl_row =>
    ({ k with inserted_cxl_row := some cxl_row, reference_counted := true },
      match moved with
      | some row => ledger.take (.ref_cnt row)
      | none => ledger)

end InsertKey

end Tigon.TwoPLPasha
