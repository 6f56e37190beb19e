import Tigon.Library.SnapshotOrder

namespace Tigon.Aria

open Tigon.Library

abbrev Word := BitVec 64

-- [epoch (24) | read-rts (20) | write-wts (20)]
namespace AriaHelper

@[simp]
def EPOCH_OFFSET : Nat := 40
@[simp]
def EPOCH_MASK : Word := 0xffffff
@[simp]
def RTS_OFFSET : Nat := 20
@[simp]
def RTS_MASK : Word := 0xfffff
@[simp]
def WTS_OFFSET : Nat := 0
@[simp]
def WTS_MASK : Word := 0xfffff

def getField (offset : Nat) (mask value : Word) : Word := (value >>> offset) &&& mask

def setField (offset : Nat) (mask value field : Word) : Word :=
  (value &&& ~~~(mask <<< offset)) ||| field <<< offset

def get_epoch : Word → Word := getField EPOCH_OFFSET EPOCH_MASK
def set_epoch : Word → Word → Word := setField EPOCH_OFFSET EPOCH_MASK
def get_rts : Word → Word := getField RTS_OFFSET RTS_MASK
def set_rts : Word → Word → Word := setField RTS_OFFSET RTS_MASK
def get_wts : Word → Word := getField WTS_OFFSET WTS_MASK
def set_wts : Word → Word → Word := setField WTS_OFFSET WTS_MASK

-- The last round of the loop around compare_exchange. A row of an older epoch starts anew, and
-- in the same epoch the smallest tid stays. None: its CHECK fails.
def reserve (get : Word → Word) (set : Word → Word → Word) (a : Word) (epoch tid : BitVec 32) :
    Option (Word × Bool) :=
  let old_epoch := get_epoch a
  if epoch.setWidth 64 < old_epoch then none
  else if old_epoch < epoch.setWidth 64 then
    some (set (set_epoch 0 (epoch.setWidth 64)) (tid.setWidth 64), true)
  else if get a < tid.setWidth 64 ∧ get a ≠ 0 then some (a, false)
  else some (set a (tid.setWidth 64), true)

def reserve_read : Word → BitVec 32 → BitVec 32 → Option (Word × Bool) := reserve get_rts set_rts

def reserve_write : Word → BitVec 32 → BitVec 32 → Option (Word × Bool) := reserve get_wts set_wts

end AriaHelper

open AriaHelper

-- What a transaction does, by what it has read. search_for_read and search_for_update do the
-- same; rows read through a local index are not reserved.
inductive Program (κ α : Type)
  | search_local_index (key : κ) (next : α → Program κ α)
  | search (key : κ) (next : α → Program κ α)
  | update (key : κ) (value : α) (next : Program κ α)
  | ready
  | abortNoRetry

structure Execution (κ α : Type) where
  readSet : List (κ × Bool)
  writeSet : List (κ × α)
  abort_no_retry : Bool

namespace Program

variable {κ α : Type}

-- Every read is answered from the snapshot, also behind an update of the key.
def execute (db : κ → α) : Program κ α → Execution κ α
  | search_local_index key next =>
    let e := (next (db key)).execute db
    { e with readSet := (key, true) :: e.readSet }
  | search key next =>
    let e := (next (db key)).execute db
    { e with readSet := (key, false) :: e.readSet }
  | update key value next =>
    let e := next.execute db
    { e with writeSet := (key, value) :: e.writeSet }
  | ready => ⟨[], [], false⟩
  | abortNoRetry => ⟨[], [], true⟩

end Program

structure Transaction (κ α : Type) where
  id : Nat
  coordinator_id : Nat
  program : Program κ α

structure Context where
  aria_read_only_optmization : Bool
  aria_reordering_optmization : Bool
  aria_snapshot_isolation : Bool
deriving DecidableEq

structure Batch (κ α : Type) where
  context : Context
  has_master_partition : Nat → κ → Bool
  epoch : BitVec 32
  snapshot : κ → α
  transactions : List (Transaction κ α)

structure Reservation (κ : Type) where
  key : κ
  tid : Nat
  is_write : Bool
deriving DecidableEq

structure Flags where
  waw : Bool
  war : Bool
  raw : Bool
deriving DecidableEq

namespace Batch

variable {κ α : Type} [DecidableEq κ] (b : Batch κ α)

def execution (txn : Transaction κ α) : Execution κ α := txn.program.execute b.snapshot

def skips (txn : Transaction κ α) : Bool :=
  b.context.aria_read_only_optmization && (b.execution txn).writeSet.isEmpty

def reserve_transaction (txn : Transaction κ α) : List (Reservation κ) :=
  let e := b.execution txn
  if e.abort_no_retry || b.skips txn then []
  else
    (e.readSet.filterMap fun (key, local_index) =>
      if local_index then none else some ⟨key, txn.id, false⟩)
      ++ e.writeSet.map fun (key, _) => ⟨key, txn.id, true⟩

-- A reservation at the master, by itself or for a message. tid is a uint32_t there.
def reserve (metadata : κ → Word) (r : Reservation κ) : Option (κ → Word) :=
  let tid := BitVec.ofNat 32 r.tid
  let res := if r.is_write then reserve_write (metadata r.key) b.epoch tid
    else reserve_read (metadata r.key) b.epoch tid
  res.map fun (value, _) => Function.update metadata r.key value

def reserveAll (metadata : κ → Word) (rs : List (Reservation κ)) : Option (κ → Word) :=
  rs.foldlM b.reserve metadata

def check (metadata : Word) (tid : Word) (is_write : Bool) : Flags :=
  let sameEpoch := get_epoch metadata == b.epoch.setWidth 64
  let readBefore := sameEpoch && decide (get_rts metadata < tid) && get_rts metadata != 0
  let writtenBefore := sameEpoch && decide (get_wts metadata < tid) && get_wts metadata != 0
  if is_write then ⟨writtenBefore, readBefore, false⟩ else ⟨false, false, writtenBefore⟩

variable (metadata : κ → Word) (txn : Transaction κ α)

def localCheck (key : κ) (is_write : Bool) : Flags :=
  b.check (metadata key) (BitVec.ofNat 64 txn.id) is_write

-- The loops of analyze_dependency: the flags from local rows, and the keys that a check
-- message is sent for. The first one ends at a local row that was written before.
def analyzeReads : List (κ × Bool) → Flags → Flags × List (κ × Bool)
  | [], flags => (flags, [])
  | (_, true) :: rest, flags => analyzeReads rest flags
  | (key, false) :: rest, flags =>
    if b.has_master_partition txn.coordinator_id key then
      if (b.localCheck metadata txn key false).raw then ({ flags with raw := true }, [])
      else analyzeReads rest flags
    else
      let (flags, requests) := analyzeReads rest flags
      (flags, (key, false) :: requests)

def analyzeWrites : List κ → Flags → Flags × List (κ × Bool)
  | [], flags => (flags, [])
  | key :: rest, flags =>
    if b.has_master_partition txn.coordinator_id key then
      let found := b.localCheck metadata txn key true
      analyzeWrites rest
        { flags with war := flags.war || found.war, waw := flags.waw || found.waw }
    else
      let (flags, requests) := analyzeWrites rest flags
      (flags, (key, true) :: requests)

-- check_request_handler and check_response_handler.
def answer (flags : Flags) (request : κ × Bool) : Flags :=
  let tid := (BitVec.ofNat 32 txn.id).setWidth 64
  let found := b.check (metadata request.1) tid request.2
  if request.2 then { flags with war := flags.war || found.war, waw := flags.waw || found.waw }
  else { flags with raw := flags.raw || found.raw }

def analyze_dependency : Flags × List (κ × Bool) :=
  let e := b.execution txn
  if b.skips txn then (⟨false, false, false⟩, [])
  else
    let (flags, readRequests) := b.analyzeReads metadata txn e.readSet ⟨false, false, false⟩
    let (flags, writeRequests) := b.analyzeWrites metadata txn (e.writeSet.map Prod.fst) flags
    (flags, readRequests ++ writeRequests)

def flags : Flags :=
  let (flags, requests) := b.analyze_dependency metadata txn
  requests.foldl (b.answer metadata txn) flags

def commits : Bool :=
  let flags := b.flags metadata txn
  if (b.execution txn).abort_no_retry then false
  else if b.skips txn then true
  else if flags.waw then false
  else if b.context.aria_snapshot_isolation then true
  else if b.context.aria_reordering_optmization then !flags.war || !flags.raw
  else !flags.raw

def committed : List (Transaction κ α) := b.transactions.filter (b.commits metadata)

end Batch

end Tigon.Aria
