import Mathlib.Logic.Function.Basic
import Tigon.Library.Transition
import Tigon.Sundial.Row

namespace Tigon.Sundial

open Function List Option Tigon.Library

variable {τ κ α : Type}

-- A response is for the read key at its offset, whose key is `key`.
inductive Piece (κ : Type)
  | read_request (key : κ) (write_lock : Bool) (key_offset : Nat)
  | read_response (key : κ) (success write_lock : Bool) (wts key_offset : Nat)
deriving DecidableEq

-- One transaction among others. A row is addressed by its key and by whether it is the one at
-- the transaction's coordinator. A write key has its read_set_pos; `wts` are those of the read
-- keys by their offset, and `readLocked` and `writeLocked` are the offsets, with the keys, whose
-- write_lock bit is set. `next` is the offset in `lock_write_set`, `calls` are the rows that
-- `abort` has still to unlock once it runs, and `unlocks` its messages.
structure AbortSystem (τ κ α : Type) where
  rows : Bool × κ → Option (Row τ α)
  writeSet : List (κ × Option Nat) := []
  wts : Nat → Nat := fun _ => 0
  readLocked : List (Nat × κ) := []
  writeLocked : List (Nat × κ) := []
  processedDeletes : List κ := []
  messages : List (Piece κ) := []
  next : Nat := 0
  calls : Option (List (Bool × κ)) := none
  unlocks : List κ := []

inductive AbortLabel (τ κ α : Type)
  | readRequest (key_offset : Nat) (key : κ) (write_lock : Bool)
  | deleteRequest (key : κ)
  | update (key : κ) (read_set_pos : Option Nat)
  | handle (m : Piece κ)
  | lock_write_set
  | abort
  | nextCall
  | handleUnlock (key : κ)
  -- what the other transactions do to a row, and inserts, removals and leases of this one
  | other (a : Bool × κ) (r : Option (Row τ α))

structure Site (τ κ : Type) where
  transaction_id : τ
  has_master_partition : κ → Bool
  replicated : κ → Bool

def Site.masterRow (c : Site τ κ) (key : κ) : Bool × κ := (c.has_master_partition key, key)

def Owned (t : τ) (r : Option (Row τ α)) : Prop := r.bind (·.owner) = some t

instance [DecidableEq τ] (t : τ) (r : Option (Row τ α)) : Decidable (Owned t r) :=
  inferInstanceAs (Decidable (_ = _))

namespace AbortSystem

def readBit (s : AbortSystem τ κ α) (pos : Option Nat) : Bool :=
  pos.any fun i => s.readLocked.any (·.1 = i)

def mark (s : AbortSystem τ κ α) (key : κ) : AbortSystem τ κ α :=
  { s with writeLocked := (s.next, key) :: s.writeLocked, next := s.next + 1 }

variable [DecidableEq τ] [DecidableEq κ] (c : Site τ κ) (s : AbortSystem τ κ α)

-- The rows after a read that locks the row if asked to, whether it could, and the wts.
def lockRow (a : Bool × κ) (write_lock : Bool) :
    Option ((Bool × κ → Option (Row τ α)) × Bool × Nat) :=
  (s.rows a).map fun r =>
    if write_lock then
      (update s.rows a (some (r.write_lock c.transaction_id).1),
        (r.write_lock c.transaction_id).2.1, r.wts)
    else (s.rows, true, r.wts)

def unlockRow (a : Bool × κ) : Option (Bool × κ → Option (Row τ α)) :=
  (s.rows a).bind fun r => (r.unlock c.transaction_id).map fun r => update s.rows a (some r)

def readRequest (key_offset : Nat) (key : κ) (write_lock : Bool) : Option (AbortSystem τ κ α) :=
  if c.has_master_partition key || c.replicated key then
    (s.lockRow c (true, key) write_lock).map fun (rows, success, wts) => { s with
      rows
      wts := update s.wts key_offset wts
      readLocked :=
        if write_lock && success then (key_offset, key) :: s.readLocked else s.readLocked }
  else some { s with messages := .read_request key write_lock key_offset :: s.messages }

def deleteRequest (key : κ) : Option (AbortSystem τ κ α) :=
  (s.lockRow c (true, key) true).map fun (rows, success, _) => { s with
    rows
    processedDeletes := if success then key :: s.processedDeletes else s.processedDeletes }

def handle (m : Piece κ) : Option (AbortSystem τ κ α) :=
  if m ∈ s.messages then
    match m with
    | .read_request key write_lock key_offset =>
      (s.lockRow c (false, key) write_lock).map fun (rows, success, wts) => { s with
        rows
        messages := .read_response key success write_lock wts key_offset :: s.messages.erase m }
    | .read_response key success write_lock wts key_offset => some { s with
        messages := s.messages.erase m
        wts := if success then update s.wts key_offset wts else s.wts
        readLocked :=
          if success && write_lock then (key_offset, key) :: s.readLocked else s.readLocked }
  else none

-- A key to be locked by message fails the CHECK of `pendingResponses`.
def lock_write_set : Option (AbortSystem τ κ α) :=
  s.writeSet[s.next]?.bind fun (key, read_set_pos) =>
    if s.readBit read_set_pos then some (s.mark key)
    else if c.has_master_partition key then
      (s.lockRow c (true, key) true).map fun (rows, success, wts) =>
        if success = false ∨ read_set_pos.any (s.wts · ≠ wts) then
          { s with rows, next := s.writeSet.length }
        else { s.mark key with rows }
    else none

def abort : AbortSystem τ κ α := { s with
  calls := s.processedDeletes.map (true, ·) ++
    (s.writeSet.zipIdx.filter fun (w, i) => s.writeLocked.any (·.1 = i) || s.readBit w.2).map
      fun w => c.masterRow w.1.1 }

def nextCall : Option (AbortSystem τ κ α) :=
  match s.calls with
  | some ((true, key) :: calls) =>
    if c.has_master_partition key then
      (s.unlockRow c (true, key)).map fun rows => { s with rows, calls }
    else none
  | some ((false, key) :: calls) => some { s with calls, unlocks := key :: s.unlocks }
  | _ => none

-- `process_requests` waits for the responses to its messages.
def step (s : AbortSystem τ κ α) : AbortLabel τ κ α → Option (AbortSystem τ κ α)
  | .readRequest key_offset key write_lock =>
    if s.calls = none then s.readRequest c key_offset key write_lock else none
  | .deleteRequest key => if s.calls = none then s.deleteRequest c key else none
  | .update key read_set_pos => if s.calls = none then
      some { s with writeSet := s.writeSet ++ [(key, read_set_pos)] } else none
  | .handle m => s.handle c m
  | .lock_write_set => if s.calls = none then s.lock_write_set c else none
  | .abort => if s.calls = none ∧ s.messages = [] then some (s.abort c) else none
  | .nextCall => s.nextCall c
  | .handleUnlock key => if key ∈ s.unlocks then (s.unlockRow c (false, key)).map fun rows =>
      { s with rows, unlocks := s.unlocks.erase key } else none
  | .other a r => if Owned c.transaction_id r → Owned c.transaction_id (s.rows a) then
      some { s with rows := update s.rows a r } else none

-- A replica of a row is not locked, the row has the wts of its read when `lock_write_set` gets
-- its lock, and a row locked by a read is to be written when the transaction aborts.
def LocksToWrite (s : AbortSystem τ κ α) : AbortLabel τ κ α → Prop
  | .readRequest _ key write_lock => write_lock = true → c.replicated key = true →
      c.has_master_partition key = true
  | .lock_write_set => ∀ w ∈ s.writeSet[s.next]?, ∀ i ∈ w.2, ∀ r ∈ s.rows (true, w.1),
      (r.write_lock c.transaction_id).2.1 = true → s.wts i = r.wts
  | .abort => ∀ p ∈ s.readLocked, ∃ w ∈ s.writeSet, w.1 = p.2 ∧ w.2 = some p.1
  | _ => True

instance (e : AbortLabel τ κ α) : Decidable (s.LocksToWrite c e) := by
  cases e <;> unfold LocksToWrite <;> infer_instance

-- Why the transaction may own a row before it aborts.
def Recorded (a : Bool × κ) : Prop :=
  (∃ p ∈ s.readLocked, a = c.masterRow p.2) ∨ (∃ p ∈ s.writeLocked, a = c.masterRow p.2) ∨
    (∃ key ∈ s.processedDeletes, a = (true, key)) ∨
    ∃ key wts i, .read_response key true true wts i ∈ s.messages ∧ a = c.masterRow key

structure Accounted : Prop where
  requests : ∀ key write_lock i, .read_request key write_lock i ∈ s.messages →
    c.has_master_partition key = false
  writes : ∀ p ∈ s.writeLocked, ∃ w, s.writeSet[p.1]? = some w ∧ w.1 = p.2
  quiet : s.calls ≠ none → s.messages = []
  recorded : s.calls = none → ∀ a, Owned c.transaction_id (s.rows a) → s.Recorded c a
  scheduled : ∀ calls, s.calls = some calls → ∀ a, Owned c.transaction_id (s.rows a) →
    a ∈ calls ∨ ∃ key ∈ s.unlocks, a = (false, key)

variable {c s} {s' : AbortSystem τ κ α} {a b : Bool × κ} {rows : Bool × κ → Option (Row τ α)}

theorem owned_of_lockRow {write_lock success : Bool} {wts : Nat}
    (h : s.lockRow c a write_lock = some (rows, success, wts))
    (hb : Owned c.transaction_id (rows b)) :
    Owned c.transaction_id (s.rows b) ∨ b = a ∧ write_lock = true ∧ success = true := by
  obtain ⟨r, hr, hlock⟩ := map_eq_some_iff.mp h
  cases write_lock with
  | false =>
    cases hlock
    exact .inl hb
  | true =>
    cases hlock
    by_cases hne : b = a
    · subst hne
      rw [update_self] at hb
      rcases r.write_lock_spec c.transaction_id with ⟨hsuccess, -⟩ | ⟨-, hrow⟩
      · exact .inr ⟨rfl, rfl, hsuccess⟩
      · exact .inl (by rwa [hrow, ← hr] at hb)
    · exact .inl (by rwa [update_of_ne hne] at hb)

theorem owned_of_unlockRow (h : s.unlockRow c a = some rows)
    (hb : Owned c.transaction_id (rows b)) : Owned c.transaction_id (s.rows b) ∧ b ≠ a := by
  obtain ⟨r, -, hunlock⟩ := bind_eq_some_iff.mp h
  obtain ⟨row, hrow, rfl⟩ := map_eq_some_iff.mp hunlock
  obtain ⟨-, -, rfl⟩ := Row.unlock_eq_some hrow
  by_cases hne : b = a
  · subst hne
    rw [update_self] at hb
    cases hb
  · exact ⟨by rwa [update_of_ne hne] at hb, hne⟩

namespace Accounted

variable (h : s.Accounted c)

include h

theorem readRequest {key_offset : Nat} {key : κ} {write_lock : Bool}
    (hok : s.LocksToWrite c (.readRequest key_offset key write_lock)) (hcalls : s.calls = none)
    (hstep : s.readRequest c key_offset key write_lock = some s') : s'.Accounted c := by
  unfold AbortSystem.readRequest at hstep
  split at hstep
  · rename_i hlocal
    obtain ⟨⟨rows, success, wts⟩, hlock, rfl⟩ := map_eq_some_iff.mp hstep
    refine ⟨h.requests, h.writes, h.quiet, fun _ a ha => ?_, by simp [hcalls]⟩
    rcases owned_of_lockRow hlock ha with ha | ⟨rfl, rfl, rfl⟩
    · refine (h.recorded hcalls a ha).imp_left fun ⟨p, hp, ha⟩ => ⟨p, ?_, ha⟩
      dsimp only
      split
      exacts [mem_cons_of_mem _ hp, hp]
    · have hmaster : c.has_master_partition key = true := by
        rcases Bool.or_eq_true_iff.mp hlocal with hmaster | hreplicated
        exacts [hmaster, hok rfl hreplicated]
      exact .inl ⟨_, mem_cons_self, by rw [Site.masterRow, hmaster]⟩
  · rename_i hremote
    cases some.inj hstep
    refine ⟨fun _ _ _ hm => ?_, h.writes, by simp [hcalls], fun _ a ha => ?_, by simp [hcalls]⟩
    · rcases mem_cons.mp hm with ⟨⟩ | hm
      · simp_all
      · exact h.requests _ _ _ hm
    · refine (h.recorded hcalls a ha).imp_right (.imp_right (.imp_right ?_))
      exact fun ⟨key, wts, i, hm, ha⟩ => ⟨key, wts, i, mem_cons_of_mem _ hm, ha⟩

theorem deleteRequest {key : κ} (hcalls : s.calls = none)
    (hstep : s.deleteRequest c key = some s') : s'.Accounted c := by
  obtain ⟨⟨rows, success, wts⟩, hlock, rfl⟩ := map_eq_some_iff.mp hstep
  refine ⟨h.requests, h.writes, h.quiet, fun _ a ha => ?_, by simp [hcalls]⟩
  rcases owned_of_lockRow hlock ha with ha | ⟨rfl, -, rfl⟩
  · refine (h.recorded hcalls a ha).imp_right (.imp_right (.imp_left ?_))
    refine fun ⟨key', hkey, ha⟩ => ⟨key', ?_, ha⟩
    dsimp only
    split
    exacts [mem_cons_of_mem _ hkey, hkey]
  · exact .inr (.inr (.inl ⟨key, mem_cons_self, rfl⟩))

theorem handle {m : Piece κ} (hstep : s.handle c m = some s') : s'.Accounted c := by
  obtain ⟨hmem, hstep⟩ := ite_none_right_eq_some.mp hstep
  have hcalls : s.calls = none := not_ne_iff.mp fun hcalls => by simp [h.quiet hcalls] at hmem
  have hrequests : ∀ key write_lock j,
      .read_request key write_lock j ∈ s.messages.erase m → c.has_master_partition key = false :=
    fun _ _ _ hm => h.requests _ _ _ (mem_of_mem_erase hm)
  cases m with
  | read_request key write_lock key_offset =>
    obtain ⟨⟨rows, success, wts⟩, hlock, rfl⟩ := map_eq_some_iff.mp hstep
    refine ⟨fun _ _ _ hm => ?_, h.writes, by simp [hcalls], fun _ a ha => ?_, by simp [hcalls]⟩
    · exact hrequests _ _ _ ((mem_cons.mp hm).resolve_left nofun)
    · rcases owned_of_lockRow hlock ha with ha | ⟨rfl, rfl, rfl⟩
      · refine (h.recorded hcalls a ha).imp_right (.imp_right (.imp_right ?_))
        refine fun ⟨key', wts', i, hm, ha⟩ => ⟨key', wts', i, mem_cons_of_mem _ ?_, ha⟩
        exact (mem_erase_of_ne (by nofun)).mpr hm
      · refine .inr (.inr (.inr ⟨key, wts, key_offset, mem_cons_self, ?_⟩))
        rw [Site.masterRow, h.requests _ _ _ hmem]
  | read_response key success write_lock wts key_offset =>
    cases some.inj hstep
    refine ⟨hrequests, h.writes, by simp [hcalls], fun _ a ha => ?_, by simp [hcalls]⟩
    rcases h.recorded hcalls a ha with ⟨p, hp, ha⟩ | hwrite | hdelete | ⟨key', wts', i, hm, hrow⟩
    · refine .inl ⟨p, ?_, ha⟩
      dsimp only
      split
      exacts [mem_cons_of_mem _ hp, hp]
    · exact .inr (.inl hwrite)
    · exact .inr (.inr (.inl hdelete))
    -- The bit takes the place of the response that is handled.
    · by_cases heq : Piece.read_response key' true true wts' i
        = .read_response key success write_lock wts key_offset
      · cases heq
        exact .inl ⟨_, mem_cons_self, hrow⟩
      · exact .inr (.inr (.inr ⟨key', wts', i, (mem_erase_of_ne heq).mpr hm, hrow⟩))

theorem lock_write_set (hok : s.LocksToWrite c .lock_write_set) (hcalls : s.calls = none)
    (hstep : s.lock_write_set c = some s') : s'.Accounted c := by
  obtain ⟨⟨key, pos⟩, hw, hstep⟩ := bind_eq_some_iff.mp hstep
  have hwrites : ∀ p ∈ (s.mark key).writeLocked, ∃ w, s.writeSet[p.1]? = some w ∧ w.1 = p.2 :=
    forall_mem_cons.mpr ⟨⟨_, hw, rfl⟩, h.writes⟩
  have hmark : ∀ a, Owned c.transaction_id (s.rows a) → (s.mark key).Recorded c a := fun a ha =>
    (h.recorded hcalls a ha).imp_right
      (.imp_left fun ⟨p, hp, ha⟩ => ⟨p, mem_cons_of_mem _ hp, ha⟩)
  dsimp only at hstep
  split at hstep
  · cases some.inj hstep
    exact ⟨h.requests, hwrites, h.quiet, fun _ => hmark, by simp [mark, hcalls]⟩
  · obtain ⟨hmaster, hstep⟩ := ite_none_right_eq_some.mp hstep
    obtain ⟨⟨rows, success, wts⟩, hlock, rfl⟩ := map_eq_some_iff.mp hstep
    dsimp only
    split
    · rename_i hfailed
      refine ⟨h.requests, h.writes, h.quiet, fun _ a ha => ?_, by simp [hcalls]⟩
      refine h.recorded hcalls a ((owned_of_lockRow hlock ha).resolve_right ?_)
      rintro ⟨-, -, rfl⟩
      obtain ⟨r, hr, hlock⟩ := map_eq_some_iff.mp hlock
      simp only [if_true, Prod.mk.injEq] at hlock
      replace hfailed := hfailed.resolve_left nofun
      cases pos with
      | none => cases hfailed
      | some i =>
        exact absurd (hlock.2.2 ▸ hok _ hw i rfl r hr hlock.2.1) (of_decide_eq_true hfailed)
    · refine ⟨h.requests, hwrites, h.quiet, fun _ a ha => ?_, by simp [mark, hcalls]⟩
      rcases owned_of_lockRow hlock ha with ha | ⟨rfl, -⟩
      · exact hmark a ha
      · exact .inr (.inl ⟨_, mem_cons_self, by rw [Site.masterRow, hmaster]⟩)

omit [DecidableEq κ] in
theorem abort (hok : s.LocksToWrite c .abort) (hcalls : s.calls = none)
    (hmessages : s.messages = []) : (s.abort c).Accounted c := by
  refine ⟨h.requests, h.writes, fun _ => hmessages, nofun, fun _ heq a ha => .inl ?_⟩
  cases some.inj heq
  have hcall : ∀ w i, s.writeSet[i]? = some w →
      (s.writeLocked.any (·.1 = i) || s.readBit w.2) = true →
      c.masterRow w.1 ∈ (s.abort c).calls.getD [] := fun w i hw hlocked =>
    mem_append_right _ (mem_map.mpr
      ⟨(w, i), mem_filter.mpr ⟨mem_zipIdx_iff_getElem?.mpr hw, hlocked⟩, rfl⟩)
  rcases h.recorded hcalls a ha with
    ⟨p, hp, rfl⟩ | ⟨p, hp, rfl⟩ | ⟨key, hkey, rfl⟩ | ⟨_, _, _, hm, -⟩
  · obtain ⟨w, hw, hkey, hpos⟩ := hok p hp
    obtain ⟨i, hi⟩ := mem_iff_getElem?.mp hw
    refine hkey ▸ hcall w i hi ?_
    rw [hpos, Bool.or_eq_true]
    exact .inr (any_eq_true.mpr ⟨p, hp, decide_eq_true rfl⟩)
  · obtain ⟨w, hw, hkey⟩ := h.writes p hp
    refine hkey ▸ hcall w _ hw ?_
    rw [Bool.or_eq_true]
    exact .inl (any_eq_true.mpr ⟨p, hp, decide_eq_true rfl⟩)
  · exact mem_append_left _ (mem_map_of_mem hkey)
  · simp [hmessages] at hm

theorem nextCall (hstep : s.nextCall c = some s') : s'.Accounted c := by
  unfold AbortSystem.nextCall at hstep
  split at hstep
  · rename_i key calls hcalls
    obtain ⟨-, hstep⟩ := ite_none_right_eq_some.mp hstep
    obtain ⟨rows, hunlock, rfl⟩ := map_eq_some_iff.mp hstep
    refine ⟨h.requests, h.writes, fun _ => h.quiet (by simp [hcalls]), nofun, fun _ heq a ha => ?_⟩
    cases some.inj heq
    obtain ⟨ha, hne⟩ := owned_of_unlockRow hunlock ha
    exact (h.scheduled _ hcalls a ha).imp_left fun hmem => (mem_cons.mp hmem).resolve_left hne
  · rename_i key calls hcalls
    cases some.inj hstep
    refine ⟨h.requests, h.writes, fun _ => h.quiet (by simp [hcalls]), nofun, fun _ heq a ha => ?_⟩
    cases some.inj heq
    rcases h.scheduled _ hcalls a ha with hmem | ⟨key', hkey, rfl⟩
    · rcases mem_cons.mp hmem with rfl | hmem
      exacts [.inr ⟨key, mem_cons_self, rfl⟩, .inl hmem]
    · exact .inr ⟨key', mem_cons_of_mem _ hkey, rfl⟩
  · cases hstep

theorem step {e : AbortLabel τ κ α} (hok : s.LocksToWrite c e)
    (hstep : AbortSystem.step c s e = some s') : s'.Accounted c := by
  cases e with
  | readRequest key_offset key write_lock =>
    obtain ⟨hcalls, hstep⟩ := ite_none_right_eq_some.mp hstep
    exact h.readRequest hok hcalls hstep
  | deleteRequest key =>
    obtain ⟨hcalls, hstep⟩ := ite_none_right_eq_some.mp hstep
    exact h.deleteRequest hcalls hstep
  | update key read_set_pos =>
    obtain ⟨-, rfl⟩ := ite_some_none_eq_some.mp hstep
    refine ⟨h.requests, fun p hp => ?_, h.quiet, h.recorded, h.scheduled⟩
    obtain ⟨w, hw, hkey⟩ := h.writes p hp
    exact ⟨w, (getElem?_append_left (List.getElem?_eq_some_iff.mp hw).1).trans hw, hkey⟩
  | handle m => exact h.handle hstep
  | lock_write_set =>
    obtain ⟨hcalls, hstep⟩ := ite_none_right_eq_some.mp hstep
    exact h.lock_write_set hok hcalls hstep
  | abort =>
    obtain ⟨⟨hcalls, hmessages⟩, rfl⟩ := ite_some_none_eq_some.mp hstep
    exact h.abort hok hcalls hmessages
  | nextCall => exact h.nextCall hstep
  | handleUnlock key =>
    obtain ⟨-, hstep⟩ := ite_none_right_eq_some.mp hstep
    obtain ⟨rows, hunlock, rfl⟩ := map_eq_some_iff.mp hstep
    refine ⟨h.requests, h.writes, h.quiet, fun hcalls a ha => ?_, fun calls hcalls a ha => ?_⟩
    · exact h.recorded hcalls a (owned_of_unlockRow hunlock ha).1
    · obtain ⟨ha, hne⟩ := owned_of_unlockRow hunlock ha
      refine (h.scheduled calls hcalls a ha).imp_right fun ⟨key', hkey, ha⟩ => ⟨key', ?_, ha⟩
      exact (mem_erase_of_ne fun heq => hne (by rw [ha, heq])).mpr hkey
  | other b r =>
    obtain ⟨hsafe, rfl⟩ := ite_some_none_eq_some.mp hstep
    have hrows : ∀ a, Owned c.transaction_id (Function.update s.rows b r a) →
        Owned c.transaction_id (s.rows a) := by
      intro a ha
      by_cases hne : a = b
      · subst hne
        exact hsafe (by rwa [update_self] at ha)
      · rwa [update_of_ne hne] at ha
    exact ⟨h.requests, h.writes, h.quiet, fun hcalls a ha => h.recorded hcalls a (hrows a ha),
      fun calls hcalls a ha => h.scheduled calls hcalls a (hrows a ha)⟩

end Accounted

-- Once `abort` has made its calls and its messages are handled, nothing is locked.
theorem abort_releases_locks {rows : Bool × κ → Option (Row τ α)}
    (hfree : ∀ a, ¬ Owned c.transaction_id (rows a))
    (hreach : Reach (step c) (fun s e => s.LocksToWrite c e) { rows } s)
    (hcalls : s.calls = some []) (hunlocks : s.unlocks = []) :
    ∀ a, ¬ Owned c.transaction_id (s.rows a) := by
  have hinv : s.Accounted c := hreach.invariant
    ⟨nofun, nofun, nofun, fun _ a ha => absurd ha (hfree a), nofun⟩
    fun _ _ _ hinv hok hstep => hinv.step hok hstep
  intro a ha
  rcases hinv.scheduled _ hcalls a ha with hmem | ⟨key, hkey, -⟩
  · cases hmem
  · simp [hunlocks] at hkey

-- Transaction 1 locks the remote row `true` by its read and the local row `false` to delete it.
theorem abort_releases_remote_lock :
    ∃ s : AbortSystem Nat Bool Nat,
      Reach (step ⟨1, (!·), fun _ => false⟩) (fun s e => s.LocksToWrite ⟨1, (!·), fun _ => false⟩ e)
        { rows := fun _ => some (.init 0 true) } s ∧
      (s.readLocked ≠ [] ∧ s.processedDeletes ≠ []) ∧ ∀ a, ¬ Owned 1 (s.rows a) := by
  obtain ⟨s, hreach, hcalls, hunlocks, hlocked⟩ := exists_reach_of_run
    (step (α := Nat) ⟨1, (!·), fun _ => false⟩)
    (fun s e => s.LocksToWrite ⟨1, (!·), fun _ => false⟩ e)
    { rows := fun _ => some (.init 0 true) }
    [.readRequest 0 true true, .update true (some 0), .deleteRequest false,
      .handle (.read_request true true 0), .handle (.read_response true true true 0 0),
      .lock_write_set, .abort, .nextCall, .nextCall, .handleUnlock true]
    (fun s => s.calls = some [] ∧ s.unlocks = [] ∧ s.readLocked ≠ [] ∧ s.processedDeletes ≠ [])
    (by decide +kernel)
  exact ⟨s, hreach, hlocked, abort_releases_locks (fun _ h => by cases h) hreach hcalls hunlocks⟩

-- Another transaction writes the row between the read and the lock.
theorem abort_keeps_lock_of_changed_row :
    ∃ s : AbortSystem Nat Bool Nat,
      Reach (step ⟨1, fun _ => true, fun _ => false⟩) (fun _ _ => True)
        { rows := fun _ => some (.init 0 true) } s ∧
      s.calls = some [] ∧ s.unlocks = [] ∧ Owned 1 (s.rows (true, false)) :=
  exists_reach_of_run _ _ _
    [.readRequest 0 false false, .other (true, false) (some ⟨1, 1, none, true, 5⟩),
      .update false (some 0), .lock_write_set, .abort] _ (by decide +kernel)

end AbortSystem

end Tigon.Sundial
