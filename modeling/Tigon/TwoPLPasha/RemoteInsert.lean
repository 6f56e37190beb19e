import Tigon.TwoPLPasha.Contents

namespace Tigon.TwoPLPasha

-- An entry of the insert set whose partition another host is the master of, with what the
-- CXL allocator answers when that host moves the row in.
structure RemoteInsert (K α : Type) where
  key : K
  value : α
  require_lock_next_row : Bool
  alloc : Allocation α
deriving DecidableEq

structure RemoteTransaction (K α : Type) where
  abort_lock : Bool
  insertSet : List (RemoteInsert K α)
deriving DecidableEq

namespace RemoteInsert

variable {K α : Type} [LinearOrder K]

-- The owner's answer is whether the placeholder went in; what became of the move-in is not
-- part of it.
def remote_insert_request_handler (ctx : Context) (owner : Host) (i : RemoteInsert K α)
    (t : Table K α) : Option (Table K α × Bool) :=
  (t.insert_and_update_next_key_info owner i.key i.value false).bind fun (t, insert_success) =>
    (t.move_from_btree_to_shared_region ctx owner i.alloc true i.key).map fun (t, _) =>
      (t, insert_success)

-- The answer is looked at by a DCHECK alone. A row that is not in the CXL index is a null
-- pointer.
def remote_insert_response_handler (host : Host) (i : RemoteInsert K α) (_success : Bool)
    (t : Table K α) : Option (Table K α × Ptr) :=
  (t.row i.key).cxl.bind fun cxl_row =>
    ((t.row i.key).remote_modify_tuple_valid_bit host cxl_row true true).map fun r =>
      (t.onRow i.key fun _ => r, cxl_row)

-- All requests to one owner travel in one message, and so do its answers.
def handleRequests (ctx : Context) (owner : Host) :
    List (RemoteInsert K α) → Table K α → Option (Table K α × List Bool)
  | [], t => some (t, [])
  | i :: rest, t =>
    (i.remote_insert_request_handler ctx owner t).bind fun (t, success) =>
      (handleRequests ctx owner rest t).map fun (t, answers) => (t, success :: answers)

def handleResponses (host : Host) :
    List (RemoteInsert K α) → List Bool → Table K α → Option (Table K α × List Ptr)
  | i :: rest, success :: answers, t =>
    (i.remote_insert_response_handler host success t).bind fun (t, cxl_row) =>
      (handleResponses host rest answers t).map fun (t, rows) => (t, cxl_row :: rows)
  | _, _, t => some (t, [])

-- An insert that asked for the lock of the next row is recorded as having it, but nobody
-- has looked for that row: the release goes through a null pointer.
def release_lock (insertSet : List (RemoteInsert K α)) (t : Table K α) : Option (Table K α) :=
  if insertSet.any fun i => i.require_lock_next_row then none else some t

def release_migrated_rows :
    List (RemoteInsert K α) → List Ptr → Table K α → Table K α
  | i :: rest, cxl_row :: rows, t =>
    release_migrated_rows rest rows
      (t.onRow i.key fun r => r.decrease_reference_count_via_ptr cxl_row)
  | _, _, t => t

end RemoteInsert

namespace RemoteTransaction

open RemoteInsert

variable {K α : Type} [LinearOrder K]

-- None: the process is gone before the commit returns. An abort leaves remote inserts
-- alone, they have not been sent yet.
def commit (ctx : Context) (host owner : Host) (txn : RemoteTransaction K α) (t : Table K α) :
    Option (Bool × Table K α) :=
  if txn.abort_lock then some (false, t)
  else
    (handleRequests ctx owner txn.insertSet t).bind fun (t, answers) =>
    (handleResponses host txn.insertSet answers t).bind fun (t, rows) =>
    (release_lock txn.insertSet t).map fun t =>
      (true, release_migrated_rows txn.insertSet rows t)

end RemoteTransaction

end Tigon.TwoPLPasha
