import Tigon.TwoPLPasha.RemoteInsert.Rows

namespace Tigon.TwoPLPasha

open List RowState Table Tigon.Library

namespace RemoteInsert

open RowState (EditsBits Waiting Moved Tracks Unused)

variable {K α : Type} [LinearOrder K] {ctx : Context} {host owner : Host}
  {i : RemoteInsert K α} {l : List (RemoteInsert K α)} {t t' : Table K α} {k : K}
  {r₀ : RowState α} {v : α} {memory : Prop}

def HasMemory (i : RemoteInsert K α) : Prop := i.alloc.smeta.isSome ∧ i.alloc.scc.isSome

instance (i : RemoteInsert K α) : Decidable i.HasMemory := inferInstanceAs (Decidable (_ ∧ _))

section Requests

def requested (i : RemoteInsert K α) (t : Table K α) : RowState α :=
  if i.key ∈ t.keys then t.row i.key
  else ((t.clearKeyReal i.key).row i.key).placeholder i.value

theorem exists_request (ctx : Context) (owner : Host) (i : RemoteInsert K α) (t : Table K α) :
    ∃ t' success r' keyReal res,
      i.remote_insert_request_handler ctx owner t = some (t', success) ∧
      (∀ m, (keyReal m).fields.scc_data = m.fields.scc_data) ∧
      moveIn ctx owner i.alloc true keyReal (i.requested t) = some (r', res) ∧
      t'.keys = insert i.key t.keys ∧ EditsBits r' (t'.row i.key) ∧
      ∀ k, k ≠ i.key → EditsBits (t.row k) (t'.row k) := by
  by_cases hkey : i.key ∈ t.keys
  · obtain ⟨t', res, r', keyReal, hmove, hreal, hin, hkeys, hself, hother⟩ :=
      exists_move_from_btree_to_shared_region ctx owner i.alloc true hkey
    refine ⟨t', false, r', keyReal, res, ?_, hreal, by rw [requested, if_pos hkey]; exact hin,
      by rw [hkeys, Finset.insert_eq_of_mem hkey], hself, hother⟩
    rw [remote_insert_request_handler, insert_without_next_lock, if_pos hkey,
      Option.bind_some]
    simp only [hmove, Option.map_some]
  · let t₁ := (t.clearKeyReal i.key).addPlaceholder i.key i.value
    have hkeys₁ : t₁.keys = insert i.key t.keys := by
      simp [t₁, addPlaceholder, clearKeyReal]
    have hself₁ : t₁.row i.key = i.requested t := by
      simp [t₁, requested, hkey, addPlaceholder, onRow]
    have hother₁ : ∀ k, k ≠ i.key → EditsBits (t.row k) (t₁.row k) := by
      intro k hk
      have hrow : t₁.row k = (t.clearKeyReal i.key).row k := by
        simp [t₁, addPlaceholder, onRow, hk]
      rw [hrow]
      exact t.editsBits_clearAdjacent _ _ k
    obtain ⟨t', res, r', keyReal, hmove, hreal, hin, hkeys, hself, hother⟩ :=
      exists_move_from_btree_to_shared_region (t := t₁) ctx owner i.alloc true
        (show i.key ∈ t₁.keys by simp [hkeys₁])
    refine ⟨t', true, r', keyReal, res, ?_, hreal, by rw [← hself₁]; exact hin,
      by rw [hkeys, hkeys₁], hself, fun k hk => (hother₁ k hk).trans (hother k hk)⟩
    rw [remote_insert_request_handler, insert_without_next_lock, if_neg hkey,
      Option.bind_some]
    simp only [t₁] at hmove
    simp only [hmove, Option.map_some]

omit [LinearOrder K] in
theorem tracks_of_moveIn {r r' : RowState α} {res : migration_result}
    {keyReal : TwoPLPashaMetadataShared → TwoPLPashaMetadataShared}
    (hreal : ∀ m, (keyReal m).fields.scc_data = m.fields.scc_data) (hunused : Unused r₀ i.alloc)
    (h : Tracks r₀ v memory r)
    (hin : moveIn ctx owner i.alloc true keyReal r = some (r', res)) :
    Tracks r₀ v (memory ∨ i.HasMemory) r' := by
  rcases h with ⟨hm, hmoved⟩ | ⟨hm, hwaiting⟩
  · exact .inl ⟨.inl hm, hmoved.moveIn hin⟩
  · rcases hwaiting.moveIn hreal hunused hin with ⟨hsmeta, hscc, hmoved⟩ | ⟨hnone, hwaiting'⟩
    · exact .inl ⟨.inr ⟨hsmeta, hscc⟩, hmoved⟩
    · exact .inr ⟨fun hor => hor.elim hm hnone, hwaiting'⟩

theorem handleRequests_tracks {answers : List Bool} (hk : k ∈ t.keys)
    (hunused : ∀ i ∈ l, i.key = k → Unused r₀ i.alloc) (h : Tracks r₀ v memory (t.row k))
    (hreq : handleRequests ctx owner l t = some (t', answers)) :
    k ∈ t'.keys ∧
      Tracks r₀ v (memory ∨ ∃ i ∈ l, i.key = k ∧ i.HasMemory) (t'.row k) := by
  induction l generalizing t memory answers with
  | nil =>
    cases hreq
    exact ⟨hk, by simpa using h⟩
  | cons i rest ih =>
    obtain ⟨t₁, success, r', keyReal, res, hone, hreal, hin, hkeys, hself, hother⟩ :=
      exists_request ctx owner i t
    rw [handleRequests, hone, Option.bind_some, Option.map_eq_some_iff] at hreq
    obtain ⟨⟨t₂, answers'⟩, hrest, hpair⟩ := hreq
    cases hpair
    have hk₁ : k ∈ t₁.keys := by simp [hkeys, hk]
    have hrest' := fun memory htracks => @ih t₁ memory answers' hk₁
      (fun j hj => hunused j (mem_cons_of_mem _ hj)) htracks hrest
    by_cases hik : i.key = k
    · subst hik
      rw [requested, if_pos hk] at hin
      obtain ⟨hmem, htracks⟩ := hrest' _ ((tracks_of_moveIn hreal
        (hunused i mem_cons_self rfl) h hin).editsBits hself)
      refine ⟨hmem, ?_⟩
      simpa [or_assoc] using htracks
    · obtain ⟨hmem, htracks⟩ := hrest' _ (h.editsBits (hother k (Ne.symm hik)))
      refine ⟨hmem, ?_⟩
      simpa [hik] using htracks

theorem handleRequests_of_not_mem {answers : List Bool} (hk : k ∉ t.keys)
    (hunused : ∀ i ∈ l, i.key = k → Unused r₀ i.alloc) (h : EditsBits r₀ (t.row k))
    (hl : ∃ i ∈ l, i.key = k) (hreq : handleRequests ctx owner l t = some (t', answers)) :
    k ∈ t'.keys ∧ ∃ i ∈ l, i.key = k ∧
      Tracks r₀ i.value (∃ i ∈ l, i.key = k ∧ i.HasMemory) (t'.row k) := by
  induction l generalizing t answers with
  | nil => simp at hl
  | cons i rest ih =>
    obtain ⟨t₁, success, r', keyReal, res, hone, hreal, hin, hkeys, hself, hother⟩ :=
      exists_request ctx owner i t
    rw [handleRequests, hone, Option.bind_some, Option.map_eq_some_iff] at hreq
    obtain ⟨⟨t₂, answers'⟩, hrest, hpair⟩ := hreq
    cases hpair
    have hunused' : ∀ j ∈ rest, j.key = k → Unused r₀ j.alloc :=
      fun j hj => hunused j (mem_cons_of_mem _ hj)
    by_cases hik : i.key = k
    · subst hik
      have hplaceholder : Tracks r₀ i.value False (i.requested t) := by
        have hclear : EditsBits r₀ ((t.clearKeyReal i.key).row i.key) :=
          h.trans (t.editsBits_clearAdjacent _ _ i.key)
        rw [requested, if_neg hk]
        exact .inr ⟨id, rfl, rfl, hclear.cxl, hclear.smeta⟩
      have htracks := (tracks_of_moveIn hreal (hunused i mem_cons_self rfl) hplaceholder
        hin).editsBits hself
      obtain ⟨hmem, htracks'⟩ := handleRequests_tracks (by simp [hkeys]) hunused' htracks hrest
      refine ⟨hmem, i, mem_cons_self, rfl, ?_⟩
      simpa using htracks'
    · have hk₁ : k ∉ t₁.keys := by
        rw [hkeys, Finset.mem_insert, not_or]
        exact ⟨fun heq => hik heq.symm, hk⟩
      have hl' : ∃ j ∈ rest, j.key = k := by simpa [hik] using hl
      obtain ⟨hmem, j, hj, hjk, htracks⟩ :=
        ih hk₁ hunused' (h.trans (hother k (Ne.symm hik))) hl' hrest
      refine ⟨hmem, j, mem_cons_of_mem _ hj, hjk, ?_⟩
      simpa [hik] using htracks

theorem exists_handleRequests (ctx : Context) (owner : Host) (l : List (RemoteInsert K α))
    (t : Table K α) :
    ∃ t' answers, handleRequests ctx owner l t = some (t', answers) ∧
      answers.length = l.length := by
  induction l generalizing t with
  | nil => exact ⟨t, [], rfl, rfl⟩
  | cons i rest ih =>
    obtain ⟨t₁, success, -, -, -, hone, -⟩ := exists_request ctx owner i t
    obtain ⟨t₂, answers, hrest, hlen⟩ := ih t₁
    refine ⟨t₂, success :: answers, ?_, by simp [hlen]⟩
    simp only [handleRequests, hone, Option.bind_some, hrest, Option.map_some]

end Requests

section Responses

variable {r r' : RowState α} {row : Ptr} {valid : Bool}

theorem exists_validate (host : Host) (r : RowState α) (row : Ptr) :
    ∃ r', r.remote_modify_tuple_valid_bit host row true true = some r' :=
  exists_finish_write (by simp [prepare_read, onSmeta])

theorem editsBits_validate (h : r.remote_modify_tuple_valid_bit host row true true = some r') :
    EditsBits (r.onScc row fun d => d.set_flag 0) r' := by
  have hread : EditsBits (r.onScc row fun d => d.set_flag 0)
      ((r.onScc row fun d => d.set_flag 0).prepare_read host row) :=
    editsBits_onSmeta (by simp)
  exact hread.trans (editsBits_finish_write h)

theorem waiting_validate (h : Waiting r₀ v r)
    (hval : r.remote_modify_tuple_valid_bit host row true true = some r') : Waiting r₀ v r' :=
  (h.onScc _).editsBits (editsBits_validate hval)

-- The flag goes to what the CXL index has for the key: to the moved row, unless there was
-- an entry before.
theorem moved_validate (h : Moved r₀ v valid r) (hrow : r.cxl = some row)
    (hval : r.remote_modify_tuple_valid_bit host row true true = some r') :
    Moved r₀ v (valid || r₀.cxl.isNone) r' := by
  refine Moved.editsBits ?_ (editsBits_validate hval)
  refine h.onScc (fun _ => rfl) ?_
  have hentry := hrow.symm.trans h.cxl
  cases hcxl : r₀.cxl with
  | none =>
    rw [hcxl, Option.getD_none, Option.some.injEq] at hentry
    rw [if_pos (by rw [hentry]; rfl)]
    simp
  | some q =>
    rw [hcxl, Option.getD_some, Option.some.injEq] at hentry
    subst hentry
    rw [if_neg (h.leftover row hcxl)]
    simp

variable {answers : List Bool} {rows : List Ptr}

theorem handleResponses_induction {P : RowState α → Prop}
    (hstep : ∀ r r' row, P r → r.cxl = some row →
      r.remote_modify_tuple_valid_bit host row true true = some r' → P r')
    (h : P (t.row k)) (hres : handleResponses host l answers t = some (t', rows)) :
    t'.keys = t.keys ∧ P (t'.row k) := by
  induction l generalizing t answers rows with
  | nil =>
    cases hres
    exact ⟨rfl, h⟩
  | cons i rest ih =>
    cases answers with
    | nil =>
      cases hres
      exact ⟨rfl, h⟩
    | cons success answers =>
      simp only [handleResponses, remote_insert_response_handler, Option.bind_eq_some_iff,
        Option.map_eq_some_iff] at hres
      obtain ⟨⟨t₁, row⟩, ⟨_, hcxl, r', hval, hpair⟩, ⟨t₂, rows'⟩, hrest, hpair'⟩ := hres
      cases hpair
      cases hpair'
      have hrow : P ((t.onRow i.key fun _ => r').row k) := by
        by_cases hik : k = i.key
        · subst hik
          simpa [onRow] using hstep _ _ row h hcxl hval
        · simpa [onRow, hik] using h
      obtain ⟨hkeys, hP⟩ := ih hrow hrest
      exact ⟨hkeys, hP⟩

theorem moved_handleResponses (h : Moved r₀ v false (t.row k)) (hlen : answers.length = l.length)
    (hl : ∃ i ∈ l, i.key = k) (hres : handleResponses host l answers t = some (t', rows)) :
    Moved r₀ v r₀.cxl.isNone (t'.row k) := by
  induction l generalizing t answers rows with
  | nil => simp at hl
  | cons i rest ih =>
    cases answers with
    | nil => simp at hlen
    | cons success answers =>
      simp only [handleResponses, remote_insert_response_handler, Option.bind_eq_some_iff,
        Option.map_eq_some_iff] at hres
      obtain ⟨⟨t₁, row⟩, ⟨_, hcxl, r', hval, hpair⟩, ⟨t₂, rows'⟩, hrest, hpair'⟩ := hres
      cases hpair
      cases hpair'
      by_cases hik : i.key = k
      · subst hik
        have hself : Moved r₀ v r₀.cxl.isNone ((t.onRow i.key fun _ => r').row i.key) := by
          simpa [onRow] using moved_validate h hcxl hval
        -- further answers for the key find the flag as it is
        refine (handleResponses_induction ?_ hself hrest).2
        intro r r'' row' hr hrow hval'
        simpa using moved_validate hr hrow hval'
      · have hother : (t.onRow i.key fun _ => r').row k = t.row k := by
          simp [onRow, Ne.symm hik]
        exact ih (by rw [hother]; exact h) (by simpa using hlen) (by simpa [hik] using hl) hrest

theorem exists_handleResponses (h : ∀ i ∈ l, (t.row i.key).cxl.isSome) :
    ∃ t' rows, handleResponses host l answers t = some (t', rows) := by
  induction l generalizing t answers with
  | nil => exact ⟨t, [], rfl⟩
  | cons i rest ih =>
    cases answers with
    | nil => exact ⟨t, [], rfl⟩
    | cons success answers =>
      obtain ⟨row, hcxl⟩ := Option.isSome_iff_exists.mp (h i mem_cons_self)
      obtain ⟨r', hval⟩ := exists_validate host (t.row i.key) row
      have hnext : ∀ j ∈ rest, ((t.onRow i.key fun _ => r').row j.key).cxl.isSome := by
        intro j hj
        by_cases hji : j.key = i.key
        · have hcxl' : r'.cxl = (t.row i.key).cxl := (editsBits_validate hval).cxl
          simp [onRow, hji, hcxl', hcxl]
        · simpa [onRow, hji] using h j (mem_cons_of_mem _ hj)
      obtain ⟨t', rows, hrest⟩ := @ih _ answers hnext
      refine ⟨t', row :: rows, ?_⟩
      simp only [handleResponses, remote_insert_response_handler, hcxl, Option.bind_some, hval,
        Option.map_some, hrest]

theorem release_migrated_rows_induction {P : RowState α → Prop}
    (hstep : ∀ r row, P r → P (r.decrease_reference_count_via_ptr row)) (h : P (t.row k)) :
    (release_migrated_rows l rows t).keys = t.keys ∧
      P ((release_migrated_rows l rows t).row k) := by
  induction l generalizing t rows with
  | nil => exact ⟨rfl, h⟩
  | cons i rest ih =>
    cases rows with
    | nil => exact ⟨rfl, h⟩
    | cons row rows =>
      have hrow : P ((t.onRow i.key fun r =>
          r.decrease_reference_count_via_ptr row).row k) := by
        by_cases hik : k = i.key
        · subst hik
          simpa [onRow] using hstep _ row h
        · simpa [onRow, hik] using h
      exact @ih _ rows hrow

end Responses

end RemoteInsert

namespace RemoteTransaction

open RemoteInsert
open RowState (EditsBits Waiting Moved Tracks Unused)

variable {K α : Type} [LinearOrder K] {ctx : Context} {host owner : Host}
  {txn : RemoteTransaction K α} {t t' : Table K α} {i : RemoteInsert K α}

-- What a commit may do to the owner's table: all of the inserts, each into an index that
-- did not have its key, or nothing.
def AllOrNothing (txn : RemoteTransaction K α) (t : Table K α) : Option (Bool × Table K α) → Prop
  | some (true, t') => ∀ i ∈ txn.insertSet,
      i.key ∉ t.keys ∧ i.key ∈ t'.keys ∧ (t'.row i.key).content = some i.value
  | some (false, t') => t' = t
  | none => False

-- The table and the allocator let an insert in: its key is in neither index, one of the
-- requests for the key finds memory, all of them are for the same value, and none asks for
-- the lock of the next row.
structure Insertable (txn : RemoteTransaction K α) (t : Table K α) (i : RemoteInsert K α) :
    Prop where
  absent : i.key ∉ t.keys
  cxl : (t.row i.key).cxl = none
  memory : ∃ j ∈ txn.insertSet, j.key = i.key ∧ j.HasMemory
  value : ∀ j ∈ txn.insertSet, j.key = i.key → j.value = i.value
  next : i.require_lock_next_row = false

omit [LinearOrder K] in
theorem release_lock_eq {l : List (RemoteInsert K α)} :
    release_lock l t = some t' ↔ (∀ i ∈ l, i.require_lock_next_row = false) ∧ t' = t := by
  by_cases hany : l.any fun i => i.require_lock_next_row
  · rw [release_lock, if_pos hany]
    obtain ⟨i, hi, hnext⟩ := any_eq_true.mp hany
    simp only [reduceCtorEq, false_iff]
    rintro ⟨hall, -⟩
    rw [hall i hi] at hnext
    cases hnext
  · rw [release_lock, if_neg hany]
    have hall : ∀ i ∈ l, i.require_lock_next_row = false := by simpa using hany
    simp only [Option.some.injEq]
    exact ⟨fun heq => ⟨hall, heq.symm⟩, fun h => h.2.symm⟩

theorem commit_cases {ret : Bool} (h : txn.commit ctx host owner t = some (ret, t')) :
    txn.abort_lock = true ∨
    ret = true ∧ (∀ i ∈ txn.insertSet, i.require_lock_next_row = false) ∧
      ∃ t₁ answers t₂ rows, handleRequests ctx owner txn.insertSet t = some (t₁, answers) ∧
        answers.length = txn.insertSet.length ∧
        handleResponses host txn.insertSet answers t₁ = some (t₂, rows) ∧
        t' = release_migrated_rows txn.insertSet rows t₂ := by
  cases habort : txn.abort_lock with
  | true => exact .inl rfl
  | false =>
    right
    obtain ⟨t₁, answers, hreq, hlen⟩ := exists_handleRequests ctx owner txn.insertSet t
    rw [commit, if_neg (by simp [habort]), hreq, Option.bind_some, Option.bind_eq_some_iff] at h
    obtain ⟨⟨t₂, rows⟩, hres, h⟩ := h
    obtain ⟨t₃, hrel, hpair⟩ := Option.map_eq_some_iff.mp h
    obtain ⟨hnext, rfl⟩ := release_lock_eq.mp hrel
    cases hpair
    exact ⟨rfl, hnext, t₁, answers, t₃, rows, hreq, hlen, hres, rfl⟩

theorem tracks_of_requests {answers : List Bool}
    (hunused : ∀ i ∈ txn.insertSet, Unused (t.row i.key) i.alloc) (hi : i ∈ txn.insertSet)
    (habsent : i.key ∉ t.keys)
    (hreq : handleRequests ctx owner txn.insertSet t = some (t', answers)) :
    i.key ∈ t'.keys ∧ ∃ j ∈ txn.insertSet, j.key = i.key ∧
      Tracks (t.row i.key) j.value (∃ j ∈ txn.insertSet, j.key = i.key ∧ j.HasMemory)
        (t'.row i.key) := by
  refine handleRequests_of_not_mem habsent (fun j hj hji => ?_) .rfl ⟨i, hi, rfl⟩ hreq
  rw [← hji]
  exact hunused j hj

theorem commit_row (hunused : ∀ i ∈ txn.insertSet, Unused (t.row i.key) i.alloc)
    (habort : txn.abort_lock = false) (hi : i ∈ txn.insertSet) (habsent : i.key ∉ t.keys)
    (h : txn.commit ctx host owner t = some (true, t')) :
    i.key ∈ t'.keys ∧ ∃ j ∈ txn.insertSet, j.key = i.key ∧
      ((∃ j ∈ txn.insertSet, j.key = i.key ∧ j.HasMemory) ∧
        Moved (t.row i.key) j.value (t.row i.key).cxl.isNone (t'.row i.key) ∨
      (¬ ∃ j ∈ txn.insertSet, j.key = i.key ∧ j.HasMemory) ∧
        Waiting (t.row i.key) j.value (t'.row i.key)) := by
  obtain habort' | ⟨-, -, t₁, answers, t₂, rows, hreq, hlen, hres, rfl⟩ := commit_cases h
  · rw [habort] at habort'
    cases habort'
  obtain ⟨hmem, j, hj, hji, htracks⟩ := tracks_of_requests hunused hi habsent hreq
  have hkeys : t₂.keys = t₁.keys :=
    (handleResponses_induction (P := fun _ => True) (k := i.key) (fun _ _ _ _ _ _ => trivial)
      trivial hres).1
  have hkeys' : (release_migrated_rows txn.insertSet rows t₂).keys = t₂.keys :=
    (release_migrated_rows_induction (P := fun _ => True) (k := i.key) (fun _ _ _ => trivial)
      trivial).1
  refine ⟨by rw [hkeys', hkeys]; exact hmem, j, hj, hji, ?_⟩
  rcases htracks with ⟨hmemory, hmoved⟩ | ⟨hmemory, hwaiting⟩
  · left
    have hmoved' := moved_handleResponses hmoved hlen ⟨i, hi, rfl⟩ hres
    refine ⟨hmemory, (release_migrated_rows_induction (fun r row hr => ?_) hmoved').2⟩
    refine hr.onScc (fun _ => rfl) ?_
    split
    · exact hr.valid
    · rfl
  · right
    have hwaiting' := (handleResponses_induction (fun r r' row hr _ hval =>
      waiting_validate hr hval) hwaiting hres).2
    exact ⟨hmemory, (release_migrated_rows_induction (fun r row hr => hr.onScc _) hwaiting').2⟩

theorem exists_commit (habort : txn.abort_lock = false)
    (hunused : ∀ i ∈ txn.insertSet, Unused (t.row i.key) i.alloc)
    (h : ∀ i ∈ txn.insertSet, txn.Insertable t i) :
    ∃ t', txn.commit ctx host owner t = some (true, t') := by
  obtain ⟨t₁, answers, hreq, hlen⟩ := exists_handleRequests ctx owner txn.insertSet t
  have hcxl : ∀ i ∈ txn.insertSet, (t₁.row i.key).cxl.isSome := by
    intro i hi
    obtain ⟨-, j, -, -, htracks⟩ := tracks_of_requests hunused hi (h i hi).absent hreq
    rcases htracks with ⟨-, hmoved⟩ | ⟨hmemory, -⟩
    · rw [hmoved.cxl]
      rfl
    · exact absurd (h i hi).memory hmemory
  obtain ⟨t₂, rows, hres⟩ := @exists_handleResponses K α _ host _ t₁ answers hcxl
  have hrel : release_lock txn.insertSet t₂ = some t₂ :=
    release_lock_eq.mpr ⟨fun i hi => (h i hi).next, rfl⟩
  refine ⟨release_migrated_rows txn.insertSet rows t₂, ?_⟩
  rw [commit, if_neg (by simp [habort]), hreq]
  simp only [Option.bind_some, hres, hrel, Option.map_some]

def oneKey : Table Nat Nat := load {5} (fun _ => ⟨0⟩) (fun _ => ⟨0, 0, 0, 0⟩) fun _ => 50

def insertOf (key : Nat) : RemoteTransaction Nat Nat where
  abort_lock := false
  insertSet := [⟨key, 70, false, ⟨some 1, some (64, ⟨0, 0, 0, 0⟩)⟩⟩]

end RemoteTransaction

end Tigon.TwoPLPasha
