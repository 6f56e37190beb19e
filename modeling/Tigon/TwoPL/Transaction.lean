import Tigon.TwoPL.Row

namespace Tigon.TwoPL

open Tigon.Library Tigon.Protocol.LockWord

-- TwoPLRWKey as an entry of the read set; search_for_read requests a read lock and
-- search_for_update a write lock. There is no value before the read.
structure ReadKey (κ α : Type) where
  key : κ
  lock_request : LockKind
  value : Option α
  tid : Word
  processed : Bool
  read_lock_bit : Bool
  write_lock_bit : Bool
deriving DecidableEq

namespace ReadKey

variable {κ α : Type}

def search (key : κ) (lock_request : LockKind) : ReadKey κ α :=
  ⟨key, lock_request, none, 0, false, false, false⟩

def get_lock_bit (r : ReadKey κ α) : LockKind → Bool
  | .read => r.read_lock_bit
  | .write => r.write_lock_bit

def set_lock_bit (r : ReadKey κ α) : LockKind → ReadKey κ α
  | .read => { r with read_lock_bit := true }
  | .write => { r with write_lock_bit := true }

def set_processed (r : ReadKey κ α) : ReadKey κ α := { r with processed := true }

def receive (r : ReadKey κ α) (kind : LockKind) (value : α) (tid : Word) : ReadKey κ α :=
  { r.set_lock_bit kind with value := some value, tid := tid }

end ReadKey

-- The messages of one transaction, requests to other coordinators and their responses; those
-- to a release change nothing. A LOCK_REQUEST of either kind is READ_LOCK_REQUEST or
-- WRITE_LOCK_REQUEST. ABORT_REQUEST and the releases go without their key_offset, which says
-- here what they are for; no handler looks at it.
inductive TwoPLMessage (κ α : Type)
  | LOCK_REQUEST (kind : LockKind) (key : κ) (key_offset : Nat)
  | LOCK_RESPONSE (kind : LockKind) (key_offset : Nat) (result : Option (α × Word))
  | ABORT_REQUEST (key : κ) (kind : LockKind) (key_offset : Nat)
  | PREPARE_REQUEST
  | PREPARE_RESPONSE
  | WRITE_REQUEST (key : κ) (value : α) (commit_tid : Word)
  | WRITE_RESPONSE
  | RELEASE_READ_LOCK_REQUEST (key : κ) (key_offset : Nat)
  | RELEASE_WRITE_LOCK_REQUEST (key : κ) (commit_tid : Word) (key_offset : Nat)
deriving DecidableEq

-- Where the worker is: in the transaction's own code, or in one of the loops below it with
-- what is left of the loop. An empty `requests` or `writing` still waits for its responses.
inductive Stage (κ α : Type)
  | executing
  | requests (todo : List Nat)
  | preparing
  | writing (commit_tid : Word) (todo : List (κ × α))
  | releasing (commit_tid : Word) (todo : List (Nat × LockKind))
  | aborting (todo : List (Nat × LockKind))
deriving DecidableEq

-- An entry of the write set is its key and what its value pointer points to.
structure Transaction (κ α : Type) where
  readSet : List (ReadKey κ α)
  writeSet : List (κ × α)
  abort_lock : Bool
  pendingResponses : Nat
  stage : Stage κ α
  messages : List (TwoPLMessage κ α)

structure Cluster (τ ω κ : Type) where
  partition_id : κ → Nat
  master_coordinator : Nat → Nat
  coordinator_id : τ → Nat
  worker_id : τ → ω

def Cluster.has_master_partition {τ ω κ : Type} (c : Cluster τ ω κ) (t : τ) (k : κ) : Bool :=
  c.master_coordinator (c.partition_id k) = c.coordinator_id t

namespace Transaction

variable {τ ω κ α : Type} (x : Transaction κ α)

def init : Transaction κ α := ⟨[], [], false, 0, .executing, []⟩

def search (key : κ) (lock_request : LockKind) : Transaction κ α :=
  { x with readSet := x.readSet ++ [ReadKey.search key lock_request] }

def search_for_read (key : κ) : Transaction κ α := x.search key .read

def search_for_update (key : κ) : Transaction κ α := x.search key .write

def update (key : κ) (value : α) : Transaction κ α :=
  { x with writeSet := x.writeSet ++ [(key, value)] }

def assign (i : Nat) (value : α) : Transaction κ α :=
  { x with writeSet := x.writeSet.modify i fun w => (w.1, value) }

def unprocessed : List Nat :=
  (List.range x.readSet.length).reverse.takeWhile fun i => x.readSet[i]?.any (!·.processed)

def prepares (c : Cluster τ ω κ) (t : τ) : List Nat :=
  (((x.writeSet.map Prod.fst ++ x.readSet.map ReadKey.key).filter
    fun k => !c.has_master_partition t k).map c.partition_id).dedup

def lockBits : List (Nat × LockKind) :=
  (List.range x.readSet.length).flatMap fun i =>
    [(i, LockKind.read), (i, .write)].filter fun l => x.readSet[i]?.any (·.get_lock_bit l.2)

def setKey (i : Nat) (r : ReadKey κ α) : Transaction κ α :=
  { x with readSet := x.readSet.set i r }

def goto (stage : Stage κ α) : Transaction κ α := { x with stage := stage }

def sends (message : TwoPLMessage κ α) : Transaction κ α :=
  { x with messages := x.messages ++ [message] }

def awaits (message : TwoPLMessage κ α) : Transaction κ α :=
  { x.sends message with pendingResponses := x.pendingResponses + 1 }

def takes (n : Nat) : Transaction κ α := { x with messages := x.messages.eraseIdx n }

def responded : Transaction κ α := { x with pendingResponses := x.pendingResponses - 1 }

def lock_response_handler (kind : LockKind) (key_offset : Nat) (result : Option (α × Word)) :
    Transaction κ α :=
  match result with
  | some (value, tid) =>
    { x with readSet := x.readSet.modify key_offset fun r => r.receive kind value tid }.responded
  | none => { x with abort_lock := true }.responded

-- Larger than the TID of any record read or written and than the worker's most recent one.
def generate_tid (max_tid : Word) : Word :=
  let max := fun a b : Word => if a < b then b else a
  max (x.readSet.foldl (fun next_tid r => max next_tid r.tid) 0) max_tid + 1

def isReady : Bool := x.readSet.all (·.processed)

end Transaction

end Tigon.TwoPL
