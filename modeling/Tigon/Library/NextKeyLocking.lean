import Tigon.Library.Neighbour
import Tigon.Library.ReadersWriter
import Mathlib.Data.Finset.Sort

namespace Tigon.Library

open List LockView

namespace LockView

variable {max : Nat} {kind : LockKind} {l : LockView}

theorem not_free_write_of_held (h : l.held kind) : l.free max .write = false := by
  cases kind with
  | read =>
    have hne : l.readers ≠ 0 := Nat.pos_iff_ne_zero.mp h
    simp [free, hne]
  | write =>
    have hwriter : l.writer = true := h
    simp [free, hwriter]

theorem writer_of_free (h : l.free max kind = true) : l.writer = false := by
  cases hwriter : l.writer with
  | false => rfl
  | true => cases kind <;> simp [free, hwriter] at h

theorem held_acquire (kind : LockKind) (l : LockView) : (l.acquire kind).held kind := by
  cases kind with
  | read => exact Nat.succ_pos _
  | write => rfl

end LockView

variable {K : Type} [LinearOrder K]

-- Next-key locking over a set of keys. A scan that started at `low` holds the rows of `held`
-- and has passed no other; those who insert hold the rows next to their new keys.
structure Guards (kind : LockKind) (low : K) (keys : Finset K) (lock : K → LockView)
    (pending held : List K) : Prop where
  sorted : held.Pairwise (· < ·)
  low_le : ∀ k ∈ held, low ≤ k
  mem : ∀ k ∈ held, k ∈ keys
  covers : ∀ k ∈ keys, low ≤ k → ∀ c ∈ held, k ≤ c → k ∈ held
  locked : ∀ k ∈ held, (lock k).held kind
  pending_mem : ∀ n ∈ pending, n ∈ keys
  writer : ∀ n ∈ pending, (lock n).writer = true
  apart : ∀ n ∈ pending, n ∉ held
  nodup : pending.Nodup

namespace Guards

variable {kind : LockKind} {low key c n : K} {keys : Finset K} {lock lock' : K → LockView}
  {pending held : List K} {max : Nat}

theorem start (hmem : ∀ n ∈ pending, n ∈ keys) (hwriter : ∀ n ∈ pending, (lock n).writer = true)
    (hnodup : pending.Nodup) : Guards kind low keys lock pending [] where
  sorted := List.Pairwise.nil
  low_le := by simp
  mem := by simp
  covers := by simp
  locked := by simp
  pending_mem := hmem
  writer := hwriter
  apart := by simp
  nodup := hnodup

section

variable (h : Guards kind low keys lock pending held)

include h

theorem of_lock (hlock : ∀ k, lock' k = lock k) : Guards kind low keys lock' pending held := by
  have heq : lock' = lock := funext hlock
  rw [heq]
  exact h

theorem lt_of_last (hlast : ∀ c ∈ held.getLast?, c < key) : ∀ k ∈ held, k < key := by
  intro k hk
  have hne : held ≠ [] := ne_nil_of_mem hk
  have hc : held.getLast? = some (held.getLast hne) := List.getLast?_eq_some_getLast hne
  generalize held.getLast hne = c at hc
  obtain ⟨rows, rfl⟩ := List.getLast?_eq_some_iff.mp hc
  have hck := hlast c hc
  rcases mem_append.mp hk with hk | hk
  · exact ((pairwise_append.mp h.sorted).2.2 k hk c (mem_singleton_self c)).trans hck
  · rw [mem_singleton.mp hk]
    exact hck

theorem next_held (hkey : key ∉ keys) (hlow : low ≤ key) (hc : c ∈ held) (hkc : key ≤ c)
    (hnext : nextIn keys key = some n) : n ∈ held := by
  obtain ⟨hmem, hlt, hmin⟩ := nextIn_eq_some.mp hnext
  have hne : key ≠ c := by
    rintro rfl
    exact hkey (h.mem key hc)
  have hnc : n ≤ c := hmin c (h.mem c hc) (lt_of_le_of_ne hkc hne)
  exact h.covers n hmem (hlow.trans hlt.le) c hc hnc

theorem refuses (hkey : key ∉ keys) (hlow : low ≤ key) (hc : c ∈ held) (hkc : key ≤ c)
    (hnext : nextIn keys key = some n) (max : Nat) : (lock n).free max .write = false :=
  not_free_write_of_held (h.locked n (h.next_held hkey hlow hc hkc hnext))

theorem insert (hkey : key ∉ keys) (hnext : nextIn keys key = some n)
    (hfree : (lock n).free max .write = true) (hn : lock' n = (lock n).acquire .write)
    (hlock : ∀ k, k ≠ n → k ≠ key → lock' k = lock k) :
    Guards kind low (insert key keys) lock' (n :: pending) held := by
  have hnheld : n ∉ held := fun hmem =>
    absurd (hfree.symm.trans (not_free_write_of_held (h.locked n hmem))) (by decide)
  have hnkeys : n ∈ keys := (nextIn_eq_some.mp hnext).1
  have hnpending : n ∉ pending := fun hmem =>
    absurd ((h.writer n hmem).symm.trans (writer_of_free hfree)) (by decide)
  refine ⟨h.sorted, h.low_le, fun k hk => Finset.mem_insert_of_mem (h.mem k hk), ?_, ?_, ?_, ?_, ?_,
    nodup_cons.mpr ⟨hnpending, h.nodup⟩⟩
  · intro k hk hlow c hc hkc
    rcases Finset.mem_insert.mp hk with rfl | hk
    · exact absurd (h.next_held hkey hlow hc hkc hnext) hnheld
    · exact h.covers k hk hlow c hc hkc
  · intro k hk
    have hkn : k ≠ n := fun heq => hnheld (heq ▸ hk)
    have hkkey : k ≠ key := fun heq => hkey (heq ▸ h.mem k hk)
    rw [hlock k hkn hkkey]
    exact h.locked k hk
  · intro m hm
    rcases mem_cons.mp hm with rfl | hm
    · exact Finset.mem_insert_of_mem hnkeys
    · exact Finset.mem_insert_of_mem (h.pending_mem m hm)
  · intro m hm
    by_cases hmn : m = n
    · subst hmn
      rw [hn]
      exact held_acquire .write _
    · have hm := (mem_cons.mp hm).resolve_left hmn
      have hmkey : m ≠ key := fun heq => hkey (heq ▸ h.pending_mem m hm)
      rw [hlock m hmn hmkey]
      exact h.writer m hm
  · intro m hm
    rcases mem_cons.mp hm with rfl | hm
    · exact hnheld
    · exact h.apart m hm

theorem release {pending' : List K} (hperm : pending.Perm (n :: pending'))
    (hlock : ∀ k, k ≠ n → lock' k = lock k) : Guards kind low keys lock' pending' held := by
  obtain ⟨hout, hnodup⟩ := nodup_cons.mp (hperm.nodup_iff.mp h.nodup)
  have hsub : ∀ m ∈ pending', m ∈ pending := fun m hm => hperm.mem_iff.mpr (mem_cons_of_mem n hm)
  have hn : n ∈ pending := hperm.mem_iff.mpr mem_cons_self
  refine ⟨h.sorted, h.low_le, h.mem, h.covers, fun k hk => ?_,
    fun m hm => h.pending_mem m (hsub m hm), fun m hm => ?_,
    fun m hm => h.apart m (hsub m hm), hnodup⟩
  · have hkn : k ≠ n := fun heq => h.apart n hn (heq ▸ hk)
    rw [hlock k hkn]
    exact h.locked k hk
  · have hmn : m ≠ n := fun heq => hout (heq ▸ hm)
    rw [hlock m hmn]
    exact h.writer m (hsub m hm)

theorem extend (hc : c ∈ keys) (hlow : low ≤ c) (hafter : ∀ k ∈ held, k < c)
    (hgap : ∀ k ∈ keys, low ≤ k → k < c → k ∈ held) (hfree : (lock c).free max kind = true)
    (hlc : lock' c = (lock c).acquire kind) (hlock : ∀ k, k ≠ c → lock' k = lock k) :
    Guards kind low keys lock' pending (held ++ [c]) := by
  have hcpending : c ∉ pending := fun hmem =>
    absurd ((h.writer c hmem).symm.trans (writer_of_free hfree)) (by decide)
  constructor
  · refine pairwise_append.mpr ⟨h.sorted, pairwise_singleton .., fun k hk m hm => ?_⟩
    rw [mem_singleton.mp hm]
    exact hafter k hk
  · intro k hk
    rcases mem_append.mp hk with hk | hk
    · exact h.low_le k hk
    · rw [mem_singleton.mp hk]
      exact hlow
  · intro k hk
    rcases mem_append.mp hk with hk | hk
    · exact h.mem k hk
    · rw [mem_singleton.mp hk]
      exact hc
  · intro k hk hlk m hm hkm
    have hkc : k ≤ c := by
      rcases mem_append.mp hm with hm | hm
      · exact hkm.trans (hafter m hm).le
      · rw [← mem_singleton.mp hm]
        exact hkm
    rcases hkc.lt_or_eq with hlt | rfl
    · exact mem_append_left _ (hgap k hk hlk hlt)
    · exact mem_append_right _ (mem_singleton_self k)
  · intro k hk
    by_cases hkc : k = c
    · subst hkc
      rw [hlc]
      exact held_acquire kind _
    · have hk := (mem_append.mp hk).resolve_right fun hs => hkc (mem_singleton.mp hs)
      rw [hlock k hkc]
      exact h.locked k hk
  · exact h.pending_mem
  · intro m hm
    have hmc : m ≠ c := fun heq => hcpending (heq ▸ hm)
    rw [hlock m hmc]
    exact h.writer m hm
  · intro m hm hmem
    rcases mem_append.mp hmem with hmem | hmem
    · exact h.apart m hm hmem
    · exact hcpending (mem_singleton.mp hmem ▸ hm)
  · exact h.nodup

end

theorem sort_range {high : K} {results : List K}
    (h : Guards kind low keys lock pending (results ++ [n])) (hhigh : ∀ k ∈ results, k ≤ high) :
    (keys.filter fun k => low ≤ k ∧ k ≤ high).sort
      = results ++ (keys.filter fun k => n ≤ k ∧ k ≤ high).sort := by
  obtain ⟨hsorted, -, hbelow⟩ := pairwise_append.mp h.sorted
  have hln : low ≤ n := h.low_le n (mem_append_right _ (mem_singleton_self n))
  have hlt : ∀ k ∈ results, k < n := fun k hk => hbelow k hk n (mem_singleton_self n)
  have hpair : (results ++ (keys.filter fun k => n ≤ k ∧ k ≤ high).sort).Pairwise (· < ·) := by
    refine pairwise_append.mpr ⟨hsorted, (Finset.sortedLT_sort _).pairwise, fun k hk m hm => ?_⟩
    have hnm : n ≤ m := (Finset.mem_filter.mp ((Finset.mem_sort _).mp hm)).2.1
    exact lt_of_lt_of_le (hlt k hk) hnm
  have hset : (results ++ (keys.filter fun k => n ≤ k ∧ k ≤ high).sort).toFinset
      = keys.filter fun k => low ≤ k ∧ k ≤ high := by
    ext k
    simp only [toFinset_append, Finset.sort_toFinset, Finset.mem_union, mem_toFinset,
      Finset.mem_filter]
    constructor
    · rintro (hk | ⟨hk, hnk, hkh⟩)
      · have hmem := mem_append_left [n] hk
        exact ⟨h.mem k hmem, h.low_le k hmem, hhigh k hk⟩
      · exact ⟨hk, hln.trans hnk, hkh⟩
    · rintro ⟨hk, hlk, hkh⟩
      rcases le_or_gt n k with hnk | hkn
      · exact .inr ⟨hk, hnk, hkh⟩
      · have hmem := h.covers k hk hlk n (mem_append_right _ (mem_singleton_self n)) hkn.le
        refine .inl ((mem_append.mp hmem).resolve_right fun hs => ?_)
        exact hkn.ne (mem_singleton.mp hs)
  rw [← hset]
  exact (toFinset_sort _ hpair.nodup).mpr (hpair.imp le_of_lt)

end Guards

end Tigon.Library
