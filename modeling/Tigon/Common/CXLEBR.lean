import Mathlib.Data.List.ProdSigma
import Mathlib.Data.List.FinRange

namespace Tigon.Common

open Function

structure CXL_EBR where
  coordinator_num : Nat
  thread_num : Nat
deriving DecidableEq

abbrev CXL_EBR.Thread (ebr : CXL_EBR) : Type := Fin ebr.coordinator_num × Fin ebr.thread_num

namespace CXL_EBR

def max_epoch : Nat := 3

def epoch_advance_threshold : Nat := 100

def slots (ebr : CXL_EBR) : List ebr.Thread :=
  List.finRange ebr.coordinator_num ×ˢ List.finRange ebr.thread_num

def listOf (epoch : Nat) : Fin max_epoch :=
  ⟨epoch % max_epoch, Nat.mod_lt _ (by decide)⟩

end CXL_EBR

structure EBRMetaLocal (O : Type) where
  last_freed_epoch : Nat
  retired_objects : Fin CXL_EBR.max_epoch → List O

-- Where a thread is in enter_critical_section, with the local variables it still needs.
inductive EBRCall (T : Type)
  | outside
  | inside
  | load_global_epoch (cur_local_epoch : Nat)
  | scan (cur_local_epoch cur_global_epoch : Nat) (advance_global_ebr : Bool) (rest : List T)
  | compare_exchange (cur_local_epoch cur_global_epoch : Nat)
  | reload_global_epoch (cur_local_epoch : Nat)
  | store_local_epoch (cur_global_epoch : Nat)
  | reclaim (cur_global_epoch : Nat)
deriving DecidableEq

namespace EBRCall

variable {T : Type}

def between : EBRCall T → Bool
  | outside | inside => true
  | _ => false

def scanFrom (cur_local_epoch cur_global_epoch : Nat) (advance_global_ebr : Bool) :
    List T → EBRCall T
  | [] =>
    if advance_global_ebr then compare_exchange cur_local_epoch cur_global_epoch
    else reload_global_epoch cur_local_epoch
  | u :: rest => scan cur_local_epoch cur_global_epoch advance_global_ebr (u :: rest)

end EBRCall

-- `retired` and `freed` list the objects given to add_retired_object and to cxlalloc_free.
-- `unlinked` has the objects a thread has unlinked in its section and not retired yet,
-- `unlinkEpoch` the local epoch of the thread at the unlink, and `readers` the threads that
-- were in a section when the object was unlinked and have not left that section since.
structure EBRState (ebr : CXL_EBR) (O : Type) where
  global_epoch : Nat
  local_epoch : ebr.Thread → Nat
  local_ebr_meta : ebr.Thread → EBRMetaLocal O
  call : ebr.Thread → EBRCall ebr.Thread
  retired : List O
  freed : List O
  unlinked : ebr.Thread → List O
  unlinkEpoch : O → Option Nat
  readers : O → ebr.Thread → Bool

inductive EBRLabel (T O : Type)
  | enter (t : T)
  | next (t : T)
  | unlink (t : T) (o : O)
  | retire (t : T) (o : O)
deriving DecidableEq

namespace EBRState

variable {ebr : CXL_EBR} {O : Type}

def start : EBRState ebr O where
  global_epoch := 0
  local_epoch := fun _ => 0
  local_ebr_meta := fun _ => ⟨0, fun _ => []⟩
  call := fun _ => .outside
  retired := []
  freed := []
  unlinked := fun _ => []
  unlinkEpoch := fun _ => none
  readers := fun _ _ => false

def setCall (s : EBRState ebr O) (t : ebr.Thread) (c : EBRCall ebr.Thread) : EBRState ebr O :=
  { s with call := update s.call t c }

def listAt (s : EBRState ebr O) (t : ebr.Thread) (epoch : Nat) : List O :=
  (s.local_ebr_meta t).retired_objects (CXL_EBR.listOf epoch)

def setListAt (s : EBRState ebr O) (t : ebr.Thread) (epoch : Nat) (l : List O) :
    EBRState ebr O :=
  { s with
    local_ebr_meta := update s.local_ebr_meta t
      { s.local_ebr_meta t with
        retired_objects := update (s.local_ebr_meta t).retired_objects
          (CXL_EBR.listOf epoch) l } }

def add_retired_object (s : EBRState ebr O) (t : ebr.Thread) (o : O) : EBRState ebr O :=
  s.setListAt t (s.local_epoch t) (s.listAt t (s.local_epoch t) ++ [o])

-- The thread leaves its section with the call; the call starts with the load of the
-- local epoch.
def enter_critical_section (s : EBRState ebr O) (t : ebr.Thread) : EBRState ebr O :=
  { s with
    call := update s.call t (.load_global_epoch (s.local_epoch t))
    unlinked := update s.unlinked t []
    readers := fun o => update (s.readers o) t false }

-- A failed CHECK is none.
def load_global_epoch (s : EBRState ebr O) (t : ebr.Thread) (cur_local_epoch : Nat) :
    Option (EBRState ebr O) :=
  if s.global_epoch = cur_local_epoch then
    if CXL_EBR.epoch_advance_threshold ≤ (s.listAt t cur_local_epoch).length then
      some (s.setCall t (.scanFrom cur_local_epoch s.global_epoch true ebr.slots))
    else some (s.setCall t (.reload_global_epoch cur_local_epoch))
  else if cur_local_epoch < s.global_epoch then
    some (s.setCall t (.reload_global_epoch cur_local_epoch))
  else none

-- The load of one local epoch. The break leaves out the other slots of that coordinator.
def scan (s : EBRState ebr O) (t : ebr.Thread) (cur_local_epoch cur_global_epoch : Nat)
    (advance_global_ebr : Bool) : List ebr.Thread → Option (EBRState ebr O)
  | [] => none
  | u :: rest =>
    if s.local_epoch u < cur_global_epoch then
      some (s.setCall t (.scanFrom cur_local_epoch cur_global_epoch false
        (rest.dropWhile fun v => v.1 = u.1)))
    else
      some (s.setCall t (.scanFrom cur_local_epoch cur_global_epoch advance_global_ebr rest))

def compare_exchange (s : EBRState ebr O) (t : ebr.Thread)
    (cur_local_epoch cur_global_epoch : Nat) : EBRState ebr O :=
  { s.setCall t (.reload_global_epoch cur_local_epoch) with
    global_epoch :=
      if s.global_epoch = cur_global_epoch then cur_global_epoch + 1 else s.global_epoch }

def reload_global_epoch (s : EBRState ebr O) (t : ebr.Thread) (cur_local_epoch : Nat) :
    Option (EBRState ebr O) :=
  if cur_local_epoch < s.global_epoch then
    if cur_local_epoch = s.global_epoch - 1 then
      some (s.setCall t (.store_local_epoch s.global_epoch))
    else none
  else some (s.setCall t (.reclaim s.global_epoch))

def store_local_epoch (s : EBRState ebr O) (t : ebr.Thread) (cur_global_epoch : Nat) :
    EBRState ebr O :=
  { s.setCall t (.reclaim cur_global_epoch) with
    local_epoch := update s.local_epoch t cur_global_epoch }

def free (s : EBRState ebr O) (t : ebr.Thread) (epoch_to_reclaim : Nat) : EBRState ebr O :=
  let s' := s.setListAt t epoch_to_reclaim []
  { s' with
    local_ebr_meta := update s'.local_ebr_meta t
      { s'.local_ebr_meta t with last_freed_epoch := epoch_to_reclaim }
    freed := s.freed ++ s.listAt t epoch_to_reclaim }

def reclaim (s : EBRState ebr O) (t : ebr.Thread) (cur_global_epoch : Nat) :
    Option (EBRState ebr O) :=
  let epoch_to_reclaim := cur_global_epoch - 2
  if 2 ≤ cur_global_epoch ∧ (s.local_ebr_meta t).last_freed_epoch < epoch_to_reclaim then
    if epoch_to_reclaim = (s.local_ebr_meta t).last_freed_epoch + 1 then
      some ((s.free t epoch_to_reclaim).setCall t .inside)
    else none
  else some (s.setCall t .inside)

-- The next step of the call a thread is in. Each is one load, store or CAS, and the last
-- one is the work on the thread's own lists.
def next (s : EBRState ebr O) (t : ebr.Thread) : Option (EBRState ebr O) :=
  match s.call t with
  | .outside | .inside => none
  | .load_global_epoch cur_local_epoch => s.load_global_epoch t cur_local_epoch
  | .scan cur_local_epoch cur_global_epoch advance_global_ebr rest =>
    s.scan t cur_local_epoch cur_global_epoch advance_global_ebr rest
  | .compare_exchange cur_local_epoch cur_global_epoch =>
    some (s.compare_exchange t cur_local_epoch cur_global_epoch)
  | .reload_global_epoch cur_local_epoch => s.reload_global_epoch t cur_local_epoch
  | .store_local_epoch cur_global_epoch => some (s.store_local_epoch t cur_global_epoch)
  | .reclaim cur_global_epoch => s.reclaim t cur_global_epoch

def inSection (s : EBRState ebr O) (t : ebr.Thread) : Bool :=
  match s.call t with
  | .inside => true
  | _ => false

variable [DecidableEq O]

-- An object is unlinked once. Whoever is in a section then may have its pointer.
def unlink (s : EBRState ebr O) (t : ebr.Thread) (o : O) : Option (EBRState ebr O) :=
  if s.inSection t ∧ s.unlinkEpoch o = none then
    some { s with
      unlinked := update s.unlinked t (o :: s.unlinked t)
      unlinkEpoch := update s.unlinkEpoch o (some (s.local_epoch t))
      readers := update s.readers o s.inSection }
  else none

def retire (s : EBRState ebr O) (t : ebr.Thread) (o : O) : Option (EBRState ebr O) :=
  if (s.call t).between then
    some { s.add_retired_object t o with
      retired := o :: s.retired
      unlinked := update s.unlinked t ((s.unlinked t).erase o) }
  else none

def step (s : EBRState ebr O) : EBRLabel ebr.Thread O → Option (EBRState ebr O)
  | .enter t => if (s.call t).between then some (s.enter_critical_section t) else none
  | .next t => s.next t
  | .unlink t o => s.unlink t o
  | .retire t o => s.retire t o

end EBRState

end Tigon.Common
