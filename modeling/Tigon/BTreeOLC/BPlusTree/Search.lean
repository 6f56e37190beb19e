import Tigon.BTreeOLC.BPlusTree

namespace Tigon.BTreeOLC.BPlusTree

open List BTreeInner

variable {K : Type} [LinearOrder K] {ks₁ ks₂ : List K} {k : K}

theorem linearSearch_append (h₁ : ∀ x ∈ ks₁, x < k) (h₂ : ∀ x ∈ ks₂, k ≤ x) :
    linearSearch (ks₁ ++ ks₂) k = ks₁.length := by
  induction ks₁ with
  | nil =>
    cases ks₂ with
    | nil => rfl
    | cons x ks₂ =>
      have hx : ¬ x < k := not_lt.mpr (h₂ x mem_cons_self)
      simp [linearSearch, findIdx_cons, hx]
  | cons x ks₁ ih =>
    obtain ⟨hx, h₁⟩ := forall_mem_cons.mp h₁
    have hrest : (ks₁ ++ ks₂).findIdx (fun y => !decide (y < k)) = ks₁.length := ih h₁
    simp [linearSearch, findIdx_cons, hx, hrest]

theorem binarySearch_append (hsorted : (ks₁ ++ ks₂).Pairwise (· < ·)) (h₁ : ∀ x ∈ ks₁, x < k)
    (h₂ : ∀ x ∈ ks₂, k ≤ x) {fuel left right : Nat} (hleft : left ≤ ks₁.length)
    (hright : ks₁.length ≤ right) (hlength : right ≤ (ks₁ ++ ks₂).length)
    (hfuel : right - left ≤ fuel) : binarySearch (ks₁ ++ ks₂) k fuel left right = ks₁.length := by
  induction fuel generalizing left right with
  | zero =>
    rw [binarySearch]
    omega
  | succ fuel ih =>
    rw [binarySearch]
    split
    · rename_i hlt
      have hmid : left + (right - 1 - left) / 2 < (ks₁ ++ ks₂).length := by omega
      generalize hm : left + (right - 1 - left) / 2 = mid at hmid
      simp only [List.getElem?_eq_getElem hmid]
      rcases Nat.lt_or_ge mid ks₁.length with hlow | hhigh
      · have hx : (ks₁ ++ ks₂)[mid] < k := by
          rw [getElem_append_left hlow]
          exact h₁ _ (getElem_mem hlow)
        rw [if_neg (ne_of_lt hx), if_pos hx]
        exact ih (by omega) hright hlength (by omega)
      · have hx : k ≤ (ks₁ ++ ks₂)[mid] := by
          rw [getElem_append_right hhigh]
          exact h₂ _ (getElem_mem _)
        split
        · rename_i heq
          -- Keys of the second part in front of the middle one would be smaller than k.
          rcases Nat.lt_or_eq_of_le hhigh with hlt' | heq'
          · have hfirst : k ≤ (ks₁ ++ ks₂)[ks₁.length] := by
              rw [getElem_append_right (Nat.le_refl _)]
              exact h₂ _ (getElem_mem _)
            have hbefore := pairwise_iff_getElem.mp hsorted _ _ (by omega) hmid hlt'
            rw [heq] at hbefore
            exact absurd hbefore (not_lt.mpr hfirst)
          · exact heq'.symm
        · rw [if_neg (not_lt.mpr hx)]
          exact ih hleft hhigh (by omega) (by omega)
    · omega

theorem lowerBound_append (hsorted : (ks₁ ++ ks₂).Pairwise (· < ·)) (h₁ : ∀ x ∈ ks₁, x < k)
    (h₂ : ∀ x ∈ ks₂, k ≤ x) : lowerBound (ks₁ ++ ks₂) k = ks₁.length := by
  rw [lowerBound]
  split
  · exact linearSearch_append h₁ h₂
  · refine binarySearch_append hsorted h₁ h₂ (Nat.zero_le _) ?_ (Nat.le_refl _) (Nat.le_refl _)
    rw [length_append]
    omega

variable {α : Type}

theorem exists_partition (key : α → K) {l : List α}
    (hsorted : l.Pairwise (fun a b => key a < key b)) (k : K) :
    ∃ l₁ l₂, l = l₁ ++ l₂ ∧ (∀ a ∈ l₁, key a < k) ∧ ∀ a ∈ l₂, k ≤ key a := by
  induction l with
  | nil => exact ⟨[], [], rfl, forall_mem_nil _, forall_mem_nil _⟩
  | cons a l ih =>
    obtain ⟨hle, hsorted⟩ := pairwise_cons.mp hsorted
    rcases lt_or_ge (key a) k with ha | ha
    · obtain ⟨l₁, l₂, rfl, h₁, h₂⟩ := ih hsorted
      exact ⟨a :: l₁, l₂, rfl, forall_mem_cons.mpr ⟨ha, h₁⟩, h₂⟩
    · refine ⟨[], a :: l, rfl, forall_mem_nil _, forall_mem_cons.mpr ⟨ha, ?_⟩⟩
      exact fun b hb => le_of_lt (lt_of_le_of_lt ha (hle b hb))

theorem lowerBound_eq_zero {ks : List K} (hsorted : ks.Pairwise (· < ·)) (h : ∀ x ∈ ks, k ≤ x) :
    lowerBound ks k = 0 :=
  lowerBound_append (nil_append ks ▸ hsorted) (forall_mem_nil _) h

theorem lowerBound_eq_length {ks : List K} (hsorted : ks.Pairwise (· < ·)) (h : ∀ x ∈ ks, x < k) :
    lowerBound ks k = ks.length := by
  rw [← append_nil ks] at hsorted
  have hbound := lowerBound_append hsorted h (forall_mem_nil _)
  rwa [append_nil] at hbound

theorem lowerBound_append_cons {sep : K} (hsorted : (ks₁ ++ sep :: ks₂).Pairwise (· < ·)) (k : K) :
    lowerBound (ks₁ ++ sep :: ks₂) k =
      if sep < k then ks₁.length + 1 + lowerBound ks₂ k else lowerBound ks₁ k := by
  obtain ⟨hsorted₁, hsorted₂, hcross⟩ := pairwise_append.mp hsorted
  obtain ⟨hsep, hsorted₂⟩ := pairwise_cons.mp hsorted₂
  split
  · rename_i hk
    obtain ⟨l₁, l₂, rfl, hlt, hge⟩ := exists_partition id hsorted₂ k
    have happend : ks₁ ++ sep :: (l₁ ++ l₂) = (ks₁ ++ sep :: l₁) ++ l₂ := by simp
    rw [lowerBound_append hsorted₂ hlt hge, happend]
    rw [happend] at hsorted
    rw [lowerBound_append hsorted ?_ hge, length_append, length_cons]
    · omega
    · intro x hx
      rcases mem_append.mp hx with hx | hx
      · exact lt_trans (hcross x hx sep mem_cons_self) hk
      · rcases mem_cons.mp hx with rfl | hx
        · exact hk
        · exact hlt x hx
  · rename_i hk
    obtain ⟨l₁, l₂, rfl, hlt, hge⟩ := exists_partition id hsorted₁ k
    rw [append_assoc] at hsorted ⊢
    rw [lowerBound_append hsorted₁ hlt hge, lowerBound_append hsorted hlt]
    intro x hx
    rcases mem_append.mp hx with hx | hx
    · exact hge x hx
    · rcases mem_cons.mp hx with rfl | hx
      · exact not_lt.mp hk
      · exact le_trans (not_lt.mp hk) (le_of_lt (hsep x hx))

theorem BTreeInner.childFor_append {C : Type} {sep : K} {cs₁ : List C}
    (hsorted : (ks₁ ++ sep :: ks₂).Pairwise (· < ·)) (hlength : cs₁.length = ks₁.length + 1)
    (cs₂ : List C) (k : K) :
    childFor ⟨ks₁ ++ sep :: ks₂, cs₁ ++ cs₂⟩ k =
      if sep < k then childFor ⟨ks₂, cs₂⟩ k else childFor ⟨ks₁, cs₁⟩ k := by
  simp only [childFor, lowerBound_append_cons hsorted]
  split
  · rw [List.getElem?_append_right (by omega)]
    congr 1
    omega
  · have hle : lowerBound ks₁ k ≤ ks₁.length := by
      obtain ⟨l₁, l₂, heq, hlt, hge⟩ :=
        exists_partition id (pairwise_append.mp hsorted).1 k
      have hsorted₁ := (pairwise_append.mp hsorted).1
      rw [heq] at hsorted₁ ⊢
      rw [lowerBound_append hsorted₁ hlt hge, length_append]
      omega
    rw [List.getElem?_append_left (by omega)]

theorem insertIdx_append_length (l₁ l₂ : List α) (a : α) :
    (l₁ ++ l₂).insertIdx l₁.length a = l₁ ++ a :: l₂ := by
  induction l₁ with
  | nil => rfl
  | cons b l₁ ih => rw [cons_append, length_cons, insertIdx_succ_cons, ih,
      cons_append]

theorem setCount_of_lt {l : List α} (h : l.length < 2 ^ 16) : setCount l = l := by
  rw [setCount, Nat.mod_eq_of_lt h, take_length]

omit [LinearOrder K] in
theorem BTreeInner.ofLists_of_lt {C : Type} {keys : List K} {children : List C}
    (h : keys.length < 2 ^ 16) (hlength : children.length = keys.length + 1) :
    ofLists keys children = ⟨keys, children⟩ := by
  rw [ofLists, setCount_of_lt h, ← hlength, take_length]

end Tigon.BTreeOLC.BPlusTree
