import Tigon.Calvin.Executor

namespace Tigon.Calvin

open Function List Option CalvinRWKey Calvin

open Tigon.Library Tigon.Protocol Tigon.Protocol.LockWord

variable {config : Config} {κ : Type}

def SameMode (k k' : CalvinRWKey κ) : Prop :=
  k.row = k'.row → k.get_read_lock_bit = k'.get_read_lock_bit

instance (k k' : CalvinRWKey κ) [DecidableEq κ] : Decidable (SameMode k k') :=
  inferInstanceAs (Decidable (_ → _))

def Compatible (k k' : CalvinRWKey κ) : Prop :=
  k.row = k'.row → k.get_read_lock_bit = true ∧ k'.get_read_lock_bit = true

instance (k k' : CalvinRWKey κ) [DecidableEq κ] : Decidable (Compatible k k') :=
  inferInstanceAs (Decidable (_ → _))

theorem Compatible.sameMode {k k' : CalvinRWKey κ} (h : Compatible k k') : SameMode k k' :=
  fun hrow => (h hrow).1.trans (h hrow).2.symm

theorem read_lock_eq {value : Word} (hwriter : (view value).writer = false)
    (hmax : (view value).readers ≠ 511) : read_lock value = some (addReader value) := by
  rw [read_lock, is_write_locked_eq, hwriter, read_lock_num_eq_max, beq_false_of_ne hmax]
  rfl

theorem write_lock_eq {value : Word} (hfree : view value = ⟨0, false⟩) :
    write_lock value = some (addWriter value) := by
  rw [write_lock, is_read_locked_eq, is_write_locked_eq, hfree]
  rfl

variable [DecidableEq κ]

def CalvinRWKey.reads (row : RowKey κ) (key : CalvinRWKey κ) : Bool :=
  decide (key.row = row) && key.get_read_lock_bit

def CalvinRWKey.writes (row : RowKey κ) (key : CalvinRWKey κ) : Bool :=
  decide (key.row = row) && !key.get_read_lock_bit

-- The words hold the locks of the keys `held` and are otherwise those of `start`.
structure Represents (start rows : Rows κ) (held : List (CalvinRWKey κ)) : Prop where
  view : ∀ row, LockWord.view (rows row) = ⟨held.countP (·.reads row), held.any (·.writes row)⟩
  seq : ∀ row, remove_lock_bit (rows row) = remove_lock_bit (start row)

def Free (rows : Rows κ) : Prop :=
  ∀ row, is_read_locked (rows row) = false ∧ is_write_locked (rows row) = false

variable {start rows : Rows κ} {held : List (CalvinRWKey κ)} {key : CalvinRWKey κ}

omit [DecidableEq κ] in
theorem view_of_free (hfree : Free rows) (row : RowKey κ) : view (rows row) = ⟨0, false⟩ := by
  obtain ⟨hread, hwrite⟩ := hfree row
  rw [is_read_locked_eq, bne_eq_false_iff_eq] at hread
  rw [is_write_locked_eq] at hwrite
  exact congrArg₂ LockView.mk hread hwrite

theorem Represents.nil (hfree : Free start) : Represents start start [] :=
  ⟨fun row => view_of_free hfree row, fun _ => rfl⟩

theorem Represents.update {value : Word} (h : Represents start rows held)
    (hview : LockWord.view value
      = ⟨(held ++ [key]).countP (·.reads key.row), (held ++ [key]).any (·.writes key.row)⟩)
    (hseq : remove_lock_bit value = remove_lock_bit (rows key.row)) :
    Represents start (update rows key.row value) (held ++ [key]) := by
  refine ⟨fun row => ?_, fun row => ?_⟩
  · by_cases hrow : row = key.row
    · subst hrow
      rw [update_self, hview]
    · rw [update_of_ne hrow, h.view]
      simp [reads, writes, Ne.symm hrow, countP_append]
  · by_cases hrow : row = key.row
    · subst hrow
      rw [update_self, hseq, h.seq]
    · rw [update_of_ne hrow, h.seq]

theorem any_writes_eq_false (hsame : ∀ k ∈ held, SameMode k key)
    (hread : key.get_read_lock_bit = true) : held.any (·.writes key.row) = false := by
  refine any_eq_false.mpr fun k hk hwrites => ?_
  obtain ⟨hrow, hbit⟩ := (Bool.and_eq_true _ _).mp hwrites
  have hmode := hsame k hk (of_decide_eq_true hrow)
  simp [hmode, hread] at hbit

theorem countP_reads_eq_zero (hsame : ∀ k ∈ held, SameMode k key)
    (hwrite : key.get_read_lock_bit = false) : held.countP (·.reads key.row) = 0 := by
  refine countP_eq_zero.mpr fun k hk hreads => ?_
  obtain ⟨hrow, hbit⟩ := (Bool.and_eq_true _ _).mp hreads
  have hmode := hsame k hk (of_decide_eq_true hrow)
  rw [hmode, hwrite] at hbit
  cases hbit

theorem Represents.lockKey (h : Represents start rows held)
    (hsame : ∀ k ∈ held, SameMode k key)
    (hcount : (held ++ [key]).countP (·.reads key.row) ≤ 511) :
    ∃ rows', lockKey rows key = some rows' ∧ Represents start rows' (held ++ [key]) := by
  have hview := h.view key.row
  by_cases hread : key.get_read_lock_bit = true
  · have hself : key.reads key.row = true := by simp [reads, hread]
    have hwriter := any_writes_eq_false hsame hread
    rw [hwriter] at hview
    rw [countP_append, countP_singleton, if_pos hself] at hcount
    have hmax : (LockWord.view (rows key.row)).readers ≠ 511 := by
      rw [hview]
      simp only
      omega
    obtain ⟨hview', hseq'⟩ := view_addReader hmax
    rw [hview] at hview'
    refine ⟨_, ?_, h.update ?_ hseq'⟩
    · rw [Calvin.lockKey, if_pos hread, read_lock_eq (congrArg LockView.writer hview) hmax,
        bind_some, is_read_locked_eq, hview']
      rfl
    · rw [hview', countP_append, countP_singleton, if_pos hself, any_append, hwriter]
      simp [LockView.acquire, writes, hread]
  · have hwrite : key.get_read_lock_bit = false := eq_false_of_ne_true hread
    have hreaders := countP_reads_eq_zero hsame hwrite
    have hself : key.reads key.row = false := by simp [reads, hwrite]
    have hnew : (held ++ [key]).countP (·.reads key.row) = 0 := by
      simp [countP_append, hreaders, hself]
    have hany : (held ++ [key]).any (·.writes key.row) = true := by
      simp [writes, hwrite]
    rw [hreaders] at hview
    by_cases hlocked : held.any (·.writes key.row) = true
    · -- the request names the row twice, one lock is enough
      rw [hlocked] at hview
      refine ⟨rows, by simp [Calvin.lockKey, hwrite, hview], ?_⟩
      have hsame : LockWord.view (rows key.row) = ⟨(held ++ [key]).countP (·.reads key.row),
          (held ++ [key]).any (·.writes key.row)⟩ := by
        rw [hview, hnew, hany]
      have hupdate := h.update hsame rfl
      rwa [update_eq_self] at hupdate
    · rw [eq_false_of_ne_true hlocked] at hview
      obtain ⟨hview', hseq'⟩ := view_addWriter (congrArg LockView.writer hview)
      rw [hview] at hview'
      refine ⟨_, ?_, h.update ?_ hseq'⟩
      · have hunlocked : ¬ is_write_locked (rows key.row) = true := by simp [hview]
        rw [Calvin.lockKey, if_neg hread, if_neg hunlocked, write_lock_eq hview,
          bind_some, is_write_locked_eq, hview']
        rfl
      · rw [hview', hnew, hany]
        rfl

theorem Represents.lockKeys {keys : List (CalvinRWKey κ)} (h : Represents start rows held)
    (hheld : ∀ key ∈ keys, ∀ k ∈ held, SameMode k key) (hkeys : keys.Pairwise SameMode)
    (hcount : ∀ row, (held ++ keys).countP (·.reads row) ≤ 511) :
    ∃ rows', keys.foldlM Calvin.lockKey rows = some rows' ∧
      Represents start rows' (held ++ keys) := by
  induction keys generalizing rows held with
  | nil => exact ⟨rows, rfl, by rwa [append_nil]⟩
  | cons key keys ih =>
    obtain ⟨hfirst, hrest⟩ := pairwise_cons.mp hkeys
    rw [append_cons] at hcount ⊢
    have hfront := hcount key.row
    rw [countP_append] at hfront
    obtain ⟨rows₁, hlock, h₁⟩ :=
      h.lockKey (hheld key mem_cons_self) (by omega)
    have hheld' : ∀ k' ∈ keys, ∀ k ∈ held ++ [key], SameMode k k' := by
      intro k' hk' k hk
      rcases mem_append.mp hk with hk | hk
      · exact hheld k' (mem_cons_of_mem _ hk') k hk
      · rw [mem_singleton.mp hk]
        exact hfirst k' hk'
    obtain ⟨rows₂, hlocks, h₂⟩ := ih h₁ hheld' hrest hcount
    exact ⟨rows₂, by rw [foldlM_cons, hlock]; exact hlocks, h₂⟩

-- A key can be obtained exactly if it goes with all keys that are held.
theorem Represents.canObtain_iff (h : Represents start rows held) :
    canObtain rows key = true ↔ ∀ k ∈ held, Compatible k key := by
  have hview := h.view key.row
  constructor
  · intro hobtain k hk hrow
    by_contra hnot
    by_cases hwrites : k.writes key.row = true
    · have hany : held.any (·.writes key.row) = true := any_eq_true.mpr ⟨k, hk, hwrites⟩
      simp [canObtain, hview, hany] at hobtain
    · have hbit : k.get_read_lock_bit = true := by
        simpa [writes, hrow] using hwrites
      have hread : key.get_read_lock_bit = false := by
        simpa [hbit] using hnot
      have hcount : held.countP (·.reads key.row) ≠ 0 := by
        intro hzero
        refine countP_eq_zero.mp hzero k hk ?_
        simp [reads, hrow, hbit]
      simp [canObtain, hview, hread, hcount] at hobtain
  · intro hcompat
    by_cases hread : key.get_read_lock_bit = true
    · have hwriter := any_writes_eq_false (fun k hk => (hcompat k hk).sameMode) hread
      simp [canObtain, hread, hview, hwriter]
    · have hnone : ∀ k ∈ held, ¬ k.row = key.row := fun k hk hrow => hread (hcompat k hk hrow).2
      have hreaders : held.countP (·.reads key.row) = 0 := by
        refine countP_eq_zero.mpr fun k hk => ?_
        simp [reads, hnone k hk]
      have hwriter : held.any (·.writes key.row) = false := by
        refine any_eq_false.mpr fun k hk => ?_
        simp [writes, hnone k hk]
      simp [canObtain, hread, hview, hreaders, hwriter]

def admitted (held : List (CalvinRWKey κ)) :
    List (TransactionLockRequest config κ) → List (TransactionLockRequest config κ)
  | [] => []
  | request :: requests =>
    if ∀ k' ∈ request.keys, ∀ k ∈ held, Compatible k k' then
      request :: admitted (held ++ request.keys) requests
    else admitted held requests

theorem admitted_sublist (held : List (CalvinRWKey κ))
    (requests : List (TransactionLockRequest config κ)) :
    (admitted held requests).Sublist requests := by
  induction requests generalizing held with
  | nil => exact .slnil
  | cons request requests ih =>
    rw [admitted]
    split
    · exact (ih _).cons_cons _
    · exact (ih _).cons _

def grantedKeys (granted : List (TransactionLockRequest config κ × Bool)) :
    List (CalvinRWKey κ) :=
  (granted.filter Prod.snd).flatMap fun request => request.1.keys

def OneMode (request : TransactionLockRequest config κ) : Prop :=
  request.keys.Pairwise SameMode

instance (request : TransactionLockRequest config κ) : Decidable (OneMode request) :=
  inferInstanceAs (Decidable (List.Pairwise _ _))

def RequestsCompatible (r r' : TransactionLockRequest config κ) : Prop :=
  ∀ k ∈ r.keys, ∀ k' ∈ r'.keys, Compatible k k'

theorem Represents.grantLocks {requests : List (TransactionLockRequest config κ)}
    (h : Represents start rows held) (hmodes : ∀ r ∈ admitted held requests, OneMode r)
    (hcount : ∀ row,
      (held ++ (admitted held requests).flatMap (·.keys)).countP (·.reads row) ≤ 511) :
    ∃ rows' flags, grantLocks rows requests = some (rows', flags) ∧
      flags.length = requests.length ∧
      Represents start rows' (held ++ grantedKeys (requests.zip flags)) ∧
      (∀ r ∈ requests.zip flags, r.2 = true → ∀ k ∈ held, ∀ k' ∈ r.1.keys, Compatible k k') ∧
      (requests.zip flags).Pairwise fun r r' =>
        r.2 = true → r'.2 = true → RequestsCompatible r.1 r'.1 := by
  induction requests generalizing rows held with
  | nil => exact ⟨rows, [], rfl, rfl, by simpa [grantedKeys] using h, by simp, .nil⟩
  | cons request requests ih =>
    rw [admitted] at hmodes hcount
    by_cases hcompat : ∀ k' ∈ request.keys, ∀ k ∈ held, Compatible k k'
    · have hall : request.keys.all (canObtain rows) = true :=
        all_eq_true.mpr fun k' hk' => h.canObtain_iff.mpr (hcompat k' hk')
      rw [if_pos hcompat] at hmodes hcount
      obtain ⟨hmode, hmodes'⟩ := forall_mem_cons.mp hmodes
      rw [flatMap_cons] at hcount
      have hkeys : ∀ row, (held ++ request.keys).countP (·.reads row) ≤ 511 := by
        intro row
        have hrow := hcount row
        rw [← append_assoc, countP_append] at hrow
        omega
      obtain ⟨locked, hlocks, h₁⟩ :=
        h.lockKeys (fun k' hk' k hk => (hcompat k' hk' k hk).sameMode) hmode hkeys
      obtain ⟨rows', flags, hgrant, hlen, h₂, hheld, hpair⟩ :=
        ih h₁ hmodes' (by simpa only [append_assoc] using hcount)
      refine ⟨rows', true :: flags, ?_, by simp [hlen], ?_, ?_, ?_⟩
      · simp [grantLocks, hall, hlocks, hgrant]
      · simpa [grantedKeys] using h₂
      · intro r hr hflag k hk k' hk'
        rcases mem_cons.mp hr with rfl | hr
        · exact hcompat k' hk' k hk
        · exact hheld r hr hflag k (mem_append_left _ hk) k' hk'
      · refine pairwise_cons.mpr ⟨fun r hr _ hflag k hk k' hk' => ?_, hpair⟩
        exact hheld r hr hflag k (mem_append_right _ hk) k' hk'
    · have hall : ¬ request.keys.all (canObtain rows) = true := fun hall =>
        hcompat fun k' hk' => h.canObtain_iff.mp (all_eq_true.mp hall k' hk')
      rw [if_neg hcompat] at hmodes hcount
      obtain ⟨rows', flags, hgrant, hlen, h₂, hheld, hpair⟩ := ih h hmodes hcount
      refine ⟨rows', false :: flags, ?_, by simp [hlen], ?_, ?_, ?_⟩
      · simp [grantLocks, hall, hgrant]
      · simpa [grantedKeys] using h₂
      · intro r hr hflag
        rcases mem_cons.mp hr with rfl | hr
        · cases hflag
        · exact hheld r hr hflag
      · exact pairwise_cons.mpr ⟨fun _ _ => nofun, hpair⟩

theorem head_granted {request : TransactionLockRequest config κ}
    {requests : List (TransactionLockRequest config κ)} {rows' : Rows κ} {flags : List Bool}
    (hfree : Free rows) (hgrant : grantLocks rows (request :: requests) = some (rows', flags)) :
    flags.head? = some true := by
  have hall : request.keys.all (canObtain rows) = true := by
    refine all_eq_true.mpr fun key _ => ?_
    simp [canObtain, view_of_free hfree]
  rw [grantLocks, if_pos hall] at hgrant
  obtain ⟨locked, -, hrest⟩ := bind_eq_some_iff.mp hgrant
  obtain ⟨result, -, heq⟩ := map_eq_some_iff.mp hrest
  rw [← (Prod.mk.inj heq).2]
  rfl

-- In the second loop `done` is released and `rest` still held; of a row that was asked for
-- twice for writing the first release frees the word.
structure Releasing (start rows : Rows κ) (done rest : List (CalvinRWKey κ)) : Prop where
  view : ∀ row, LockWord.view (rows row)
    = ⟨rest.countP (·.reads row), rest.any (·.writes row) && !done.any (·.writes row)⟩
  seq : ∀ row, remove_lock_bit (rows row) = remove_lock_bit (start row)

theorem Releasing.releaseKey {done rest : List (CalvinRWKey κ)}
    (h : Releasing start rows done (key :: rest)) :
    Releasing start (releaseKey rows key) (done ++ [key]) rest := by
  have hview := h.view key.row
  have hother : ∀ (value : Word) (row : RowKey κ), row ≠ key.row →
      LockWord.view (update rows key.row value row)
        = ⟨rest.countP (·.reads row),
          rest.any (·.writes row) && !(done ++ [key]).any (·.writes row)⟩
      := by
    intro value row hrow
    rw [update_of_ne hrow, h.view]
    simp [reads, writes, Ne.symm hrow]
  have hupdate : ∀ value : Word, remove_lock_bit value = remove_lock_bit (rows key.row) →
      LockWord.view value = ⟨rest.countP (·.reads key.row),
        rest.any (·.writes key.row) && !(done ++ [key]).any (·.writes key.row)⟩ →
      Releasing start (update rows key.row value) (done ++ [key]) rest := by
    intro value hseq hvalue
    refine ⟨fun row => ?_, fun row => ?_⟩
    · by_cases hrow : row = key.row
      · subst hrow
        rw [update_self, hvalue]
      · exact hother value row hrow
    · by_cases hrow : row = key.row
      · subst hrow
        rw [update_self, hseq, h.seq]
      · rw [update_of_ne hrow, h.seq]
  by_cases hread : key.get_read_lock_bit = true
  · have hreads : key.reads key.row = true := by simp [reads, hread]
    have hwrites : key.writes key.row = false := by simp [writes, hread]
    rw [countP_cons_of_pos hreads, any_cons, hwrites, Bool.false_or] at hview
    have hpos : 0 < (LockWord.view (rows key.row)).readers := by
      rw [hview]
      exact Nat.succ_pos _
    obtain ⟨hview', hseq'⟩ := view_dropReader hpos
    rw [Calvin.releaseKey, if_pos hread]
    refine hupdate _ hseq' ?_
    rw [hview', hview, any_append]
    simp [LockView.release, hwrites]
  · have hwrite : key.get_read_lock_bit = false := eq_false_of_ne_true hread
    have hreads : ¬ key.reads key.row = true := by simp [reads, hwrite]
    have hwrites : key.writes key.row = true := by simp [writes, hwrite]
    rw [countP_cons_of_neg hreads, any_cons, hwrites, Bool.true_or,
      Bool.true_and] at hview
    rw [Calvin.releaseKey, if_neg hread]
    by_cases hlocked : is_write_locked (rows key.row) = true
    · rw [if_pos hlocked]
      obtain ⟨hview', hseq'⟩ := view_dropWriter hlocked
      refine hupdate _ hseq' ?_
      rw [hview', hview, any_append]
      simp [LockView.release, hwrites]
    · rw [if_neg hlocked]
      rw [is_write_locked_eq, hview] at hlocked
      have hsame := hupdate (rows key.row) rfl ?_
      · rwa [update_eq_self] at hsame
      · rw [hview, any_append]
        simpa [hwrites] using hlocked

theorem Releasing.releaseKeys {done rest : List (CalvinRWKey κ)}
    (h : Releasing start rows done rest) :
    Releasing start (rest.foldl Calvin.releaseKey rows) (done ++ rest) [] := by
  induction rest generalizing rows done with
  | nil => rwa [append_nil]
  | cons key rest ih =>
    rw [append_cons]
    exact ih h.releaseKey

theorem releaseLocks_eq (rows : Rows κ)
    (granted : List (TransactionLockRequest config κ × Bool)) :
    releaseLocks rows granted = (grantedKeys granted).foldl releaseKey rows := by
  induction granted generalizing rows with
  | nil => rfl
  | cons request granted ih =>
    obtain ⟨request, flag⟩ := request
    cases flag with
    | true =>
      have hkeys : grantedKeys ((request, true) :: granted)
          = request.keys ++ grantedKeys granted := rfl
      rw [hkeys, foldl_append, ← ih]
      rfl
    | false => exact ih rows

theorem Represents.releaseLocks {granted : List (TransactionLockRequest config κ × Bool)}
    (hfree : Free start) (h : Represents start rows (grantedKeys granted)) :
    releaseLocks rows granted = start := by
  have hstart : Releasing start rows [] (grantedKeys granted) :=
    ⟨fun row => by rw [h.view]; simp, h.seq⟩
  have hend := hstart.releaseKeys
  rw [← releaseLocks_eq] at hend
  funext row
  refine eq_of_view_eq ?_ (hend.seq row)
  rw [hend.view, view_of_free hfree]
  rfl

end Tigon.Calvin
