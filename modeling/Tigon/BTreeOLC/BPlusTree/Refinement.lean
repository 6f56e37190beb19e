import Mathlib.Algebra.Order.Group.Nat
import Tigon.BTreeOLC.BPlusTree.Remove

namespace Tigon.BTreeOLC.BPlusTree

open Function List Tigon.Library
open Node

inductive Op (K V : Type)
  | insert (k : K) (v : V)
  | remove (k : K)
  | lookup (k : K)
deriving DecidableEq

inductive Result (V : Type)
  | done (b : Bool)
  | found (v : Option V)
deriving DecidableEq

variable {K V : Type} [LinearOrder K]

namespace Tree

def apply (p : Params K) (t : Tree K V) : Op K V → Option (Tree K V × Result V)
  | .insert k v => (t.insert p k v).map fun r => (r.1, .done r.2)
  | .remove k => some ((t.remove p k).1, .done (t.remove p k).2)
  | .lookup k => some (t, .found (t.lookup k))

def run (p : Params K) : Tree K V → List (Op K V) → Option (List (Result V))
  | _, [] => some []
  | t, op :: ops => (t.apply p op).bind fun r => (run p r.1 ops).map (r.2 :: ·)

end Tree

namespace Map

def apply (m : K → Option V) : Op K V → (K → Option V) × Result V
  | .insert k v => if (m k).isSome then (m, .done false)
      else (update m k (some v), .done true)
  | .remove k => (update m k none, .done (m k).isSome)
  | .lookup k => (m, .found (m k))

def run : (K → Option V) → List (Op K V) → List (Result V)
  | _, [] => []
  | m, op :: ops => (apply m op).2 :: run (apply m op).1 ops

end Map

variable {p : Params K} {k : K} {v : V} {es es₁ es₂ : List (K × V)}

section Lookup

theorem lookup_insert (hparted : Parted k es₁ es₂) :
    (fun x => (es₁ ++ (k, v) :: es₂).lookup x)
      = update (fun x => (es₁ ++ es₂).lookup x) k (some v) := by
  funext x
  by_cases hx : x = k
  · subst hx
    have hlookup := hparted.lookup_append [(x, v)]
    simpa using hlookup
  · rw [update_of_ne hx, lookup_append, lookup_append, lookup_cons,
      beq_false_of_ne hx]

theorem lookup_of_parted (hparted : Parted k es₁ es₂) : (es₁ ++ es₂).lookup k = none :=
  hparted.lookup_append []

end Lookup

namespace Tree

variable {t : Tree K V}

def toMap (t : Tree K V) (k : K) : Option V := t.entries.lookup k

theorem lookup_eq (hroomy : p.Roomy) (ht : t.WF p) (k : K) : t.lookup k = t.toMap k := by
  obtain ⟨l, lo, hi, ls₁, ls₂, hleaf, hl, -, -, hparted, hleaves, -⟩ :=
    descend hroomy ht.1 ht.2 (over_none k) (upTo_none k)
  have hlookup : t.lookup k = l.lookup k := by
    rw [lookup, Node.lookup, hleaf, Option.bind_some]
  have hmap : t.toMap k = l.entries.lookup k := by
    have hentries : t.entries = _ := (congrArg (List.flatMap BTreeLeaf.entries) hleaves).trans
      flatMap_append
    rw [toMap, hentries, flatMap_cons, hparted.lookup_append]
  rw [hlookup, hmap, l.lookup_eq hl.1]

theorem toMap_insert {t' : Tree K V} {b : Bool}
    (hspec : InsertSpec k v t.entries t'.entries b) :
    Map.apply t.toMap (.insert k v) = (t'.toMap, .done b) := by
  cases b with
  | true =>
    obtain ⟨es₁, es₂, hparted, heq, heq'⟩ := hspec
    have hnone : t.toMap k = none := by
      rw [toMap, heq, lookup_of_parted hparted]
    have hmap : t'.toMap = update t.toMap k (some v) := by
      unfold toMap
      rw [heq, heq', lookup_insert hparted]
    rw [Map.apply, hnone, hmap]
    rfl
  | false =>
    obtain ⟨heq, w, es₁, es₂, hparted, hes⟩ := hspec
    have hsome : t.toMap k = some w := by
      have hlookup := hparted.lookup_append [(k, w)]
      rw [toMap, hes]
      simpa using hlookup
    have hmap : t'.toMap = t.toMap := by
      unfold toMap
      rw [heq]
    rw [Map.apply, hsome, hmap]
    rfl

theorem toMap_remove {t' : Tree K V} {b : Bool} (hspec : RemoveSpec k t.entries t'.entries b) :
    Map.apply t.toMap (.remove k) = (t'.toMap, .done b) := by
  cases b with
  | true =>
    obtain ⟨v, es₁, es₂, hparted, heq, heq'⟩ := hspec
    have hmap : t.toMap = update t'.toMap k (some v) := by
      unfold toMap
      rw [heq, heq', lookup_insert hparted]
    have hnone : t'.toMap k = none := by
      rw [toMap, heq', lookup_of_parted hparted]
    rw [Map.apply, hmap, update_idem, update_self, ← hnone,
      update_eq_self]
    rfl
  | false =>
    obtain ⟨heq, es₁, es₂, hparted, hes⟩ := hspec
    have hnone : t.toMap k = none := by
      rw [toMap, hes, lookup_of_parted hparted]
    have hmap : t'.toMap = t.toMap := by
      unfold toMap
      rw [heq]
    rw [Map.apply, hmap, hnone, ← hnone, update_eq_self, hnone]
    rfl

theorem apply_simulates (hroomy : p.Roomy) (ht : t.WF p) (op : Op K V) :
    ∃ t' r, t.apply p op = some (t', r) ∧ t'.WF p ∧ Map.apply t.toMap op = (t'.toMap, r) := by
  cases op with
  | insert k v =>
    obtain ⟨t', b, hinsert, hwf, hspec⟩ := insert_spec hroomy ht k v
    exact ⟨t', .done b, by rw [apply, hinsert]; rfl, hwf, toMap_insert hspec⟩
  | remove k =>
    obtain ⟨hwf, hspec⟩ := remove_spec hroomy ht k
    exact ⟨_, _, rfl, hwf, toMap_remove hspec⟩
  | lookup k => exact ⟨t, _, rfl, ht, by rw [Map.apply, lookup_eq hroomy ht]⟩

theorem run_eq (hroomy : p.Roomy) (ht : t.WF p) (ops : List (Op K V)) :
    t.run p ops = some (Map.run t.toMap ops) := by
  induction ops generalizing t with
  | nil => rfl
  | cons op ops ih =>
    obtain ⟨t', r, happly, hwf, hmap⟩ := apply_simulates hroomy ht op
    rw [run, happly, Option.bind_some, ih hwf, Map.run, hmap]
    rfl

-- A tree that starts empty gives the results of a finite map.
theorem run_refines_map (hroomy : p.Roomy) (ops : List (Op K V)) :
    Tree.run p Tree.empty ops = some (Map.run (fun _ => none) ops) :=
  run_eq hroomy (wf_empty p) ops

def inserts (keys : List Nat) : List (Op Nat Nat) := keys.map fun k => .insert k (k + 100)

theorem run_refines_map_small_nodes :
    Tree.run ⟨3, 5, 0⟩ Tree.empty
        (inserts [1, 2, 3, 4, 5, 6, 7, 8, 9, 10] ++ [.remove 1, .remove 2, .lookup 3])
      = some (Map.run (fun _ => none)
        (inserts [1, 2, 3, 4, 5, 6, 7, 8, 9, 10] ++ [.remove 1, .remove 2, .lookup 3])) :=
  run_refines_map ⟨by decide, by decide, by decide, by decide⟩ _

-- An inner node for four children is split into one with an only child and the rest. When the
-- child gets empty, its parent is merged with the key that is read in front of its keys: the
-- address in next_.
theorem lost_key_of_four_children :
    Tree.run ⟨3, 4, 93824992292864⟩ Tree.empty
        (inserts [1, 2, 3, 4, 5, 6, 7, 8] ++ [.remove 1, .lookup 2])
      ≠ some (Map.run (fun _ => none)
        (inserts [1, 2, 3, 4, 5, 6, 7, 8] ++ [.remove 1, .lookup 2])) := by
  decide +kernel

end Tree

end Tigon.BTreeOLC.BPlusTree
