import Tigon.TwoPLPasha.InsertSystem
import Tigon.TwoPLPasha.Scan

namespace Tigon.TwoPLPasha

open Tigon.Library

namespace Table

variable {K α : Type} [LinearOrder K]

-- The keys of the CXL index. Each of them is in the local index.
def cxlKeys (t : Table K α) : Finset K := t.keys.filter fun k => (t.row k).cxl.isSome

-- What the CXL index hands out after `cursor`: a key, its row and whether it is the last.
def fetch (t : Table K α) (min_key : K) (cursor : Option K) : Option (K × Ptr × Bool) :=
  let keys := t.cxlKeys.filter fun k => min_key ≤ k ∧ ∀ c ∈ cursor, c < k
  if h : keys.Nonempty then
    let key := keys.min' h
    (t.row key).cxl.map fun cxl_row => (key, cxl_row, (nextIn t.cxlKeys key).isNone)
  else none

end Table

namespace ScanArgs

-- The neighbours a scan needs to be in shared memory are, as far as the row's bits say.
def neighboursReal {K : Type} [LinearOrder K] (args : ScanArgs K) (found : Nat) (key : K)
    (smeta : TwoPLPashaMetadataShared) : Bool :=
  if key = args.min_key then smeta.get_next_key_real_bit
  else if found = args.limit then smeta.get_prev_key_real_bit
  else smeta.get_next_key_real_bit && smeta.get_prev_key_real_bit

end ScanArgs

-- Where the remote scan processor is: between two rows, in front of the section that tests
-- the bits or of the one that locks the row, or done. A scan that needs data to be migrated
-- gives back what it has.
inductive RemotePhase (K : Type)
  | fetching
  | checking (key : K) (cxl_row : Ptr) (is_last_tuple : Bool)
  | locking (key : K) (cxl_row : Ptr) (is_last_tuple : Bool)
  | unlocking
  | dereferencing
  | returned (scan_success migration_required : Bool)
deriving DecidableEq

structure RemoteScan (K : Type) where
  scan_results : List (K × Ptr)
  next_row_entity : Option (K × Ptr)
  cursor : Option K
  phase : RemotePhase K
deriving DecidableEq

namespace RemoteScan

def start (K : Type) : RemoteScan K := ⟨[], none, none, .fetching⟩

def keys {K : Type} (scan : RemoteScan K) : List K := scan.scan_results.map Prod.fst

def fail {K : Type} (scan : RemoteScan K) : RemoteScan K :=
  { scan with phase := .returned false scan.scan_results.isEmpty }

end RemoteScan

structure RemoteScanSystem (K α : Type) where
  inserts : InsertSystem K α
  scan : RemoteScan K

inductive RemoteScanLabel (K α : Type)
  | other (e : InsertLabel K α)
  | scan
deriving DecidableEq

namespace RemoteScanSystem

variable {K α : Type} [LinearOrder K]

def table (s : RemoteScanSystem K α) : Table K α := s.inserts.table

def lockRow (scanner : Host) (args : ScanArgs K) (key : K) (cxl_row : Ptr) (is_last_tuple : Bool)
    (s : RemoteScanSystem K α) : RemoteScanSystem K α :=
  let res := RowState.remoteLock args.type.kind false true (s.table.row key) scanner cxl_row
  { inserts := { s.inserts with table := s.table.onRow key fun _ => res.row }
    scan :=
      if res.success then
        if args.locking_next_tuple s.scan.keys key is_last_tuple then
          { s.scan with next_row_entity := some (key, cxl_row), phase := .returned true false }
        else
          { s.scan with
            scan_results := s.scan.scan_results ++ [(key, cxl_row)]
            cursor := some key
            phase := .fetching }
      else s.scan.fail }

def scanStep (ctx : Context) (host scanner : Host) (args : ScanArgs K)
    (s : RemoteScanSystem K α) : Option (RemoteScanSystem K α) :=
  match s.scan.phase with
  | .fetching =>
    match s.table.fetch args.min_key s.scan.cursor with
    | some (key, cxl_row, is_last_tuple) =>
      some { s with scan := { s.scan with phase := .checking key cxl_row is_last_tuple } }
    | none => some { s with scan := s.scan.fail }
  | .checking key cxl_row is_last_tuple =>
    if args.skips s.scan.keys key then
      some { s with scan := { s.scan with cursor := some key, phase := .fetching } }
    else if args.neighboursReal s.scan.scan_results.length key
        ((s.table.row key).smeta cxl_row) then
      some { s with scan := { s.scan with phase := .locking key cxl_row is_last_tuple } }
    else some { s with scan := { s.scan with phase := .unlocking } }
  | .locking key cxl_row is_last_tuple => some (s.lockRow scanner args key cxl_row is_last_tuple)
  | .unlocking =>
    match s.scan.scan_results with
    | [] => some { s with scan := { s.scan with phase := .returned false true } }
    | (key, cxl_row) :: _ =>
      (s.table.step ctx host (.call key (.remoteRelease cxl_row args.type.kind))).map fun t =>
        { inserts := { s.inserts with table := t }
          scan := { s.scan with phase := .dereferencing } }
  | .dereferencing =>
    match s.scan.scan_results with
    | [] => none
    | (key, cxl_row) :: rest =>
      (s.table.step ctx host (.call key (.decreaseReferenceCount cxl_row))).map fun t =>
        { inserts := { s.inserts with table := t }
          scan := { s.scan with scan_results := rest, phase := .unlocking } }
  | .returned .. => none

def step (ctx : Context) (host scanner : Host) (args : ScanArgs K) (s : RemoteScanSystem K α) :
    RemoteScanLabel K α → Option (RemoteScanSystem K α)
  | .other e => (s.inserts.step ctx host e).map fun inserts => { s with inserts := inserts }
  | .scan => s.scanStep ctx host scanner args

end RemoteScanSystem

end Tigon.TwoPLPasha
