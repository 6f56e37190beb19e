import Tigon.Library.CacheLine
import Tigon.TwoPLPasha.Metadata.Coherence
import Tigon.TwoPLPasha.RowSystem

namespace Tigon.TwoPLPasha

open Tigon.Library

namespace RowSystem

variable {α C : Type}

def withBlock (s : RowSystem α C) (o : Word) (d : TwoPLPashaSharedDataSCC α) : RowSystem α C :=
  { s with row := { s.row with scc := Function.update s.row.scc o d } }

variable [DecidableEq C]

-- A scan_for_update changes the payload where its result points to, which is the local row
-- for the owner, and write_and_replicate then calls update with that payload.
def scanUpdate (s : RowSystem α C) (c : C) (value : α) : Option (RowSystem α C) :=
  match s.access c with
  | .holding .write none _ => { s with row := { s.row with data := value } }.update c value
  | .holding .write (some _) _ => s.update c value
  | _ => none

-- Its rows are unlocked without a version.
def releaseScan (s : RowSystem α C) (c : C) : Option (RowSystem α C) :=
  match s.access c with
  | .holding .write via (some value) =>
    ((s.setAccess c (.holding .write via none)).release c).map fun t =>
      { t with payload := value }
  | _ => none

def moveOutUnchecked (cfg : Config C) (s : RowSystem α C) : Option (RowSystem α C) :=
  some { s with row := s.row.uninstallShared cfg.ctx cfg.owner }

end RowSystem

-- A row whose SCC data every host reads and writes through its own cache. In `base` it is
-- what CXL memory holds. `unpublished` is the host whose cache alone has the payload that a
-- range update committed.
structure CachedSystem (α C : Type) where
  base : RowSystem α C
  copy : Word → Host → Option (TwoPLPashaSharedDataSCC α)
  unpublished : Option Host

inductive CachedLabel (α C : Type)
  | row (e : RowLabel α C)
  | scanUpdate (c : C) (value : α)
  | releaseScan (c : C)
  | evict (host : Host) (o : Word)
deriving DecidableEq

namespace CachedSystem

variable {α C : Type}

def line (s : CachedSystem α C) (o : Word) : CacheLine Host (TwoPLPashaSharedDataSCC α) :=
  ⟨s.base.row.scc o, s.copy o⟩

def onBase (s : CachedSystem α C) (b : RowSystem α C) : CachedSystem α C := { s with base := b }

def put (s : CachedSystem α C) (t : RowSystem α C) (o : Word)
    (l : CacheLine Host (TwoPLPashaSharedDataSCC α)) : CachedSystem α C :=
  { s with
    base := { t with row := { t.row with scc := Function.update s.base.row.scc o l.memory } }
    copy := Function.update s.copy o l.copy }

-- Host `h` has worked on the block at `o` with the line `l`, and may have published it.
def worked (s : CachedSystem α C) (h : Host) (publish : Bool) (t : RowSystem α C) (o : Word)
    (l : CacheLine Host (TwoPLPashaSharedDataSCC α)) : CachedSystem α C :=
  let l := l.store h (t.row.scc o)
  if publish then { s.put t o (l.clwb h) with unpublished := none } else s.put t o l

def prepare_read (s : CachedSystem α C) (h : Host) (p : Ptr) :
    CacheLine Host (TwoPLPashaSharedDataSCC α) :=
  let l := s.line (s.base.row.smeta p).get_scc_data
  if (s.base.row.smeta p).scc_bit h then l else l.clflush h

def lineFor (s : CachedSystem α C) (prepare : Bool) (h : Host) (p : Ptr) :
    CacheLine Host (TwoPLPashaSharedDataSCC α) :=
  if prepare then s.prepare_read h p else s.line (s.base.row.smeta p).get_scc_data

-- A latched section of host `h` on the shared row `p`. Some start with prepare_read and
-- some end with finish_write.
def latched (s : CachedSystem α C) (h : Host) (p : Ptr) (prepare publish : Bool)
    (f : RowSystem α C → Option (RowSystem α C)) : Option (CachedSystem α C) :=
  let o := (s.base.row.smeta p).get_scc_data
  let l := s.lineFor prepare h p
  (f (s.base.withBlock o (l.view h))).map fun t => s.worked h publish t o l

def owned (cfg : Config C) (s : CachedSystem α C) (prepare publish : Bool)
    (f : RowSystem α C → Option (RowSystem α C)) : Option (CachedSystem α C) :=
  if s.base.row.lmeta.is_migrated then
    s.latched cfg.owner s.base.row.lmeta.migrated_row prepare publish f
  else (f s.base).map s.onBase

def through (cfg : Config C) (s : CachedSystem α C) (c : C) (prepare publish : Bool)
    (f : RowSystem α C → Option (RowSystem α C)) : Option (CachedSystem α C) :=
  match (s.base.access c).pointer with
  | some p => s.latched (cfg.host c) p prepare publish f
  | none => s.owned cfg prepare publish f

-- The block a move-in fills, none if there is no memory for it or for the metadata.
def blockForMoveIn (cfg : Config C) (s : CachedSystem α C) (alloc : Allocation α) :
    Option Word :=
  if alloc.smeta.isSome then
    match s.base.row.lmeta.scc_data, cfg.ctx.enable_scc with
    | some o, true => some o
    | _, _ => alloc.scc.map Prod.fst
  else none

def moveIn (cfg : Config C) (s : CachedSystem α C) (alloc : Allocation α)
    (inc_ref_cnt : Bool) : Option (CachedSystem α C) :=
  if s.base.row.lmeta.is_migrated then
    s.owned cfg false false fun b => b.moveIn cfg alloc inc_ref_cnt
  else
    match s.blockForMoveIn cfg alloc with
    | some o =>
      ((s.base.withBlock o ((s.line o).view cfg.owner)).moveIn cfg alloc inc_ref_cnt).map fun t =>
        s.worked cfg.owner true t o (s.line o)
    | none => (s.base.moveIn cfg alloc inc_ref_cnt).map s.onBase

variable [DecidableEq C]

-- The reference count is looked at before prepare_read.
def moveOut (cfg : Config C) (s : CachedSystem α C) : Option (CachedSystem α C) :=
  let o := (s.base.row.smeta s.base.row.lmeta.migrated_row).get_scc_data
  if s.base.row.lmeta.is_migrated && decide (((s.line o).view cfg.owner).ref_cnt > 0) then some s
  else if s.base.row.lmeta.is_migrated then
    s.owned cfg true false fun b => b.moveOutUnchecked cfg
  else some s

def hostOf (cfg : Config C) (c : C) : Option Ptr → Host
  | none => cfg.owner
  | some _ => cfg.host c

def releaseScan (cfg : Config C) (s : CachedSystem α C) (c : C) : Option (CachedSystem α C) :=
  (s.base.releaseScan c).map fun b =>
    { s.onBase b with
      unpublished := if s.base.row.lmeta.is_migrated
        then some (hostOf cfg c (s.base.access c).pointer) else s.unpublished }

variable [DecidableEq α]

def step (cfg : Config C) (s : CachedSystem α C) :
    CachedLabel α C → Option (CachedSystem α C)
  | .row (.localLock c kind copy) => s.owned cfg true false fun b => b.localLock cfg c kind copy
  | .row (.search c how) => (s.base.search cfg c how).map s.onBase
  | .row (.getMigratedRow c) => s.through cfg c false false fun b => b.getMigratedRow c
  | .row (.remoteLock c kind) => s.through cfg c true false fun b => b.remoteLock cfg c kind
  | .row (.update c value) => s.through cfg c false false fun b => b.update c value
  | .row (.release c) => (s.base.release c).map s.onBase
  | .row (.releaseVersion c new_value) =>
    s.through cfg c false true fun b => b.releaseVersion cfg c new_value
  | .row (.searchReferenced c) => (s.base.searchReferenced c).map s.onBase
  | .row (.dereference c) => s.through cfg c false false fun b => b.dereference c
  | .row (.moveIn alloc inc_ref_cnt) => s.moveIn cfg alloc inc_ref_cnt
  | .row .moveOut => s.moveOut cfg
  | .row .commitInsert | .row (.searchInserted _) | .row (.commitRemoteInsert _) => none
  | .scanUpdate c value => s.through cfg c false false fun b => b.scanUpdate c value
  | .releaseScan c => s.releaseScan cfg c
  | .evict h o => ((s.line o).evict h).map fun l => s.put s.base o l

def start (smeta : Ptr → TwoPLPashaMetadataShared) (scc : Word → TwoPLPashaSharedDataSCC α)
    (copy : Word → Host → Option (TwoPLPashaSharedDataSCC α)) (value : α) : CachedSystem α C where
  base := .start smeta scc value .committed
  copy := copy
  unpublished := none

def sees (cfg : Config C) (s : CachedSystem α C) : RowLabel α C → RowSystem α C
  | .localLock .. =>
    let p := s.base.row.lmeta.migrated_row
    if s.base.row.lmeta.is_migrated then
      s.base.withBlock (s.base.row.smeta p).get_scc_data
        ((s.prepare_read cfg.owner p).view cfg.owner)
    else s.base
  | .remoteLock c _ =>
    match (s.base.access c).pointer with
    | some p => s.base.withBlock (s.base.row.smeta p).get_scc_data
        ((s.prepare_read (cfg.host c) p).view (cfg.host c))
    | none => s.base
  | _ => s.base

def lockCall (cfg : Config C) (s : CachedSystem α C) (e : RowLabel α C) :
    Option (LockResult α) := (s.sees cfg e).lockCall cfg e

end CachedSystem

end Tigon.TwoPLPasha
