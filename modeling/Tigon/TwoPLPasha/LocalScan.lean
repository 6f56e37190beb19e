import Tigon.BTreeOLC.Leaves
import Tigon.TwoPLPasha.InsertSystem
import Tigon.TwoPLPasha.Scan

namespace Tigon.TwoPLPasha

open Tigon.Library
open Tigon.BTreeOLC (BTreeLeaf locate nextKey prevKey insertKey splitLeaf)

-- Where the scan of the owner's index is: in front of the leaf that `lowKey` leads to, with
-- that leaf unlocked again and the address of the next one at hand, or done.
inductive LocalPhase (K : Type)
  | entering (lowKey : K)
  | leaving (nextLeaf : Nat)
  | returned (scan_success : Bool)
deriving DecidableEq

structure LocalScan (K : Type) where
  scan_results : List K
  next_row_entity : Option K
  phase : LocalPhase K
deriving DecidableEq

def LocalScan.start {K : Type} (min_key : K) : LocalScan K := ⟨[], none, .entering min_key⟩

section Section

variable {K α : Type} [LinearOrder K]

-- The processor's answer says whether the scan ends here.
def local_scan_processor (host : Host) (args : ScanArgs K) (key : K) (is_last_tuple : Bool)
    (t : Table K α) (scan : LocalScan K) : Table K α × LocalScan K × Bool :=
  if args.skips scan.scan_results key then (t, scan, false)
  else
    let res := RowState.localLock args.type.kind false (t.row key) host
    let t := t.onRow key fun _ => res.row
    if res.success then
      if args.locking_next_tuple scan.scan_results key is_last_tuple then
        (t, { scan with next_row_entity := some key, phase := .returned true }, true)
      else (t, { scan with scan_results := scan.scan_results ++ [key] }, false)
    else (t, { scan with phase := .returned false }, true)

def scanLeaf (host : Host) (args : ScanArgs K) (last_leaf : Bool) :
    List K → Table K α → LocalScan K → Table K α × LocalScan K × Bool
  | [], t, scan => (t, scan, false)
  | key :: rest, t, scan =>
    match local_scan_processor host args key (last_leaf && rest.isEmpty) t scan with
    | (t, scan, true) => (t, scan, true)
    | (t, scan, false) => scanLeaf host args last_leaf rest t scan

end Section

structure LocalScanSystem (K α : Type) where
  inserts : InsertSystem K α
  leaves : List (BTreeLeaf K)
  scan : LocalScan K

inductive LocalScanLabel (K α : Type)
  | other (e : InsertLabel K α)
  | split (key : K) (id : Nat)
  | scan
deriving DecidableEq

namespace LocalScanSystem

variable {K α : Type} [LinearOrder K]

def table (s : LocalScanSystem K α) : Table K α := s.inserts.table

-- The index finds the neighbours in the leaves and runs into a null pointer or into a slot
-- that holds no key when there is no next one. A full leaf is split first.
def insert (maxEntries : Nat) (host : Host) (key : K) (value : α) (s : LocalScanSystem K α) :
    Option (LocalScanSystem K α) :=
  (locate key s.leaves).bind fun (leaf, nextLeaf) =>
    if leaf.keys.length = maxEntries then none
    else if key ∈ leaf.keys then some s
    else
      (nextKey key leaf nextLeaf).bind fun next =>
        (s.table.insertBetween host key value true (prevKey s.leaves key leaf) (some next)).map
          fun res =>
            { s with
              inserts := s.inserts.afterInsert key (some next) res
              leaves := if res.2 then insertKey key s.leaves else s.leaves }

def split (maxEntries : Nat) (key : K) (id : Nat) (s : LocalScanSystem K α) :
    Option (LocalScanSystem K α) :=
  (locate key s.leaves).bind fun (leaf, _) =>
    if leaf.keys.length = maxEntries then
      (splitLeaf id key s.leaves).map fun leaves => { s with leaves := leaves }
    else none

-- The next section of `scanForUpdate`. A scan that comes to the end of the leaves or to an
-- empty one returns what its processor last set, and that is success.
def scanStep (host : Host) (args : ScanArgs K) (s : LocalScanSystem K α) :
    Option (LocalScanSystem K α) :=
  match s.scan.phase with
  | .entering lowKey =>
    (locate lowKey s.leaves).map fun (leaf, nextLeaf) =>
      let (t, scan, quit) :=
        scanLeaf host args nextLeaf.isNone (leaf.atLeast lowKey) s.table s.scan
      { s with
        inserts := { s.inserts with table := t }
        scan :=
          if quit then scan
          else { scan with
            phase := match nextLeaf with
              | some leaf => .leaving leaf.id
              | none => .returned true } }
  | .leaving nextLeaf =>
    (s.leaves.find? fun leaf => leaf.id = nextLeaf).map fun leaf =>
      { s with scan := { s.scan with
        phase := match leaf.keys.head? with
          | some lowKey => .entering lowKey
          | none => .returned true } }
  | .returned _ => none

def step (maxEntries : Nat) (ctx : Context) (host : Host) (args : ScanArgs K)
    (s : LocalScanSystem K α) : LocalScanLabel K α → Option (LocalScanSystem K α)
  | .other (.insert key value) => s.insert maxEntries host key value
  | .other e => (s.inserts.step ctx host e).map fun inserts => { s with inserts := inserts }
  | .split key id => s.split maxEntries key id
  | .scan => s.scanStep host args

end LocalScanSystem

end Tigon.TwoPLPasha
