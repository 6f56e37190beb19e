import Tigon.Library.NextKeyLocking
import Tigon.TwoPLPasha.Transaction

namespace Tigon.TwoPLPasha

open List Tigon.Library

structure ScanArgs (K : Type) where
  min_key : K
  max_key : K
  limit : Nat
  type : ScanType
deriving DecidableEq

namespace ScanArgs

variable {K : Type} [LinearOrder K] (args : ScanArgs K)

-- What the local and the remote scan processor do before they look at the row: is it the
-- row after the range, and was it handed out already. `results` are the keys found so far.
def locking_next_tuple (results : List K) (key : K) (is_last_tuple : Bool) : Bool :=
  is_last_tuple || (args.limit != 0 && results.length == args.limit) || decide (args.max_key < key)

def skips (results : List K) (key : K) : Bool :=
  if args.min_key ≤ key then results.getLast?.any fun last => key ≤ last else true

def rows (keys : Finset K) : List K :=
  let range := (keys.filter fun k => args.min_key ≤ k ∧ k ≤ args.max_key).sort
  if args.limit = 0 then range else range.take args.limit

structure Within (results : List K) : Prop where
  max_key : ∀ k ∈ results, k ≤ args.max_key
  limit : args.limit ≠ 0 → results.length ≤ args.limit

def StopsAt (results : List K) (next : K) : Prop :=
  args.max_key < next ∨ args.limit ≠ 0 ∧ results.length = args.limit

variable {args} {results : List K} {key next : K} {is_last_tuple : Bool}

theorem within_nil : args.Within [] :=
  ⟨by simp, fun _ => Nat.zero_le _⟩

theorem Within.push (h : args.Within results)
    (hnext : args.locking_next_tuple results key is_last_tuple = false) :
    args.Within (results ++ [key]) := by
  simp only [locking_next_tuple, Bool.or_eq_false_iff, Bool.and_eq_false_iff, bne_eq_false_iff_eq,
    beq_eq_false_iff_ne, decide_eq_false_iff_not, not_lt] at hnext
  obtain ⟨⟨-, hlimit⟩, hmax⟩ := hnext
  constructor
  · intro k hk
    rcases mem_append.mp hk with hk | hk
    · exact h.max_key k hk
    · rw [mem_singleton.mp hk]
      exact hmax
  · intro hne
    have hle := h.limit hne
    have hlt := hlimit.resolve_left hne
    rw [length_append, length_singleton]
    omega

theorem stopsAt_of_locking_next_tuple
    (hnext : args.locking_next_tuple results key is_last_tuple = true)
    (hlast : is_last_tuple = true → args.StopsAt results key) : args.StopsAt results key := by
  simp only [locking_next_tuple, Bool.or_eq_true, Bool.and_eq_true, bne_iff_ne, beq_iff_eq,
    decide_eq_true_eq] at hnext
  rcases hnext with (hlast' | hlimit) | hmax
  · exact hlast hlast'
  · exact .inr hlimit
  · exact .inl hmax

theorem eq_rows {kind : LockKind} {keys : Finset K} {lock : K → LockView} {pending : List K}
    (hg : Guards kind args.min_key keys lock pending (results ++ [next]))
    (hwithin : args.Within results) (hstop : args.StopsAt results next) :
    results = args.rows keys := by
  have hsort := hg.sort_range hwithin.max_key
  unfold rows
  rw [hsort]
  rcases hstop with hmax | ⟨hne, hlen⟩
  · have hempty : (keys.filter fun k => next ≤ k ∧ k ≤ args.max_key) = ∅ := by
      refine Finset.filter_eq_empty_iff.mpr fun k _ hk => ?_
      exact absurd (hk.1.trans hk.2) (not_le.mpr hmax)
    rw [hempty, Finset.sort_empty, append_nil]
    split
    · rfl
    · rename_i hne
      exact (take_of_length_le (hwithin.limit hne)).symm
  · rw [if_neg hne, ← hlen]
    exact take_left.symm

theorem isLeast_next {kind : LockKind} {keys : Finset K} {lock : K → LockView} {pending : List K}
    (hg : Guards kind args.min_key keys lock pending (results ++ [next])) :
    IsLeast {k | k ∈ keys ∧ args.min_key ≤ k ∧ ∀ r ∈ results, r < k} next := by
  have hmem : next ∈ results ++ [next] := mem_append_right _ (mem_singleton_self next)
  refine ⟨⟨hg.mem next hmem, hg.low_le next hmem, ?_⟩, ?_⟩
  · intro r hr
    exact (pairwise_append.mp hg.sorted).2.2 r hr next (mem_singleton_self next)
  · rintro k ⟨hk, hmin, hafter⟩
    by_contra hlt
    have hheld := hg.covers k hk hmin next hmem (le_of_not_ge hlt)
    rcases mem_append.mp hheld with hr | hr
    · exact lt_irrefl k (hafter k hr)
    · exact hlt (mem_singleton.mp hr ▸ le_refl k)

theorem mem_rows_of_unlimited {keys : Finset K} (hlimit : args.limit = 0) :
    key ∈ args.rows keys ↔ key ∈ keys ∧ args.min_key ≤ key ∧ key ≤ args.max_key := by
  simp [rows, hlimit]

theorem rows_of_lt (h : args.max_key < args.min_key) (keys : Finset K) : args.rows keys = [] := by
  have hempty : (keys.filter fun k => args.min_key ≤ k ∧ k ≤ args.max_key) = ∅ := by
    refine Finset.filter_eq_empty_iff.mpr fun k _ hk => ?_
    exact absurd (hk.1.trans hk.2) (not_le.mpr h)
  simp [rows, hempty]

end ScanArgs

end Tigon.TwoPLPasha
