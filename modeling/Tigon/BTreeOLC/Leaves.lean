import Mathlib.Data.Finset.Basic

namespace Tigon.BTreeOLC

-- A leaf of the tree. `upper` is the separator above it in the inner nodes, none for the
-- last leaf; the leaf's address is `id`, and `pre` is what its pointer to the previous leaf
-- says. The pointer to the next leaf leads to the next one of the list.
structure BTreeLeaf (K : Type) where
  id : Nat
  pre : Option Nat
  keys : List K
  upper : Option K
deriving DecidableEq

variable {K : Type} [LinearOrder K]

def BTreeLeaf.below (k : K) (l : BTreeLeaf K) : Bool := l.upper.any fun u => u < k

def locate (k : K) : List (BTreeLeaf K) → Option (BTreeLeaf K × Option (BTreeLeaf K))
  | [] => none
  | l :: ls => if l.below k then locate k ls else some (l, ls.head?)

def BTreeLeaf.atLeast (k : K) (l : BTreeLeaf K) : List K := l.keys.dropWhile fun x => x < k

def BTreeLeaf.before (k : K) (l : BTreeLeaf K) : List K := l.keys.takeWhile fun x => x < k

-- The tuples an insert of `k` is handed with: the next one may be the first of the next
-- leaf, the previous one the last of the leaf `pre` points to.
def nextKey (k : K) (l : BTreeLeaf K) (next : Option (BTreeLeaf K)) : Option K :=
  match l.atLeast k with
  | x :: _ => some x
  | [] => next.bind fun n => n.keys.head?

def prevKey (leaves : List (BTreeLeaf K)) (k : K) (l : BTreeLeaf K) : Option K :=
  match (l.before k).getLast? with
  | some x => some x
  | none => l.pre.bind fun id => (leaves.find? fun p => p.id = id).bind fun p => p.keys.getLast?

def insertKey (k : K) : List (BTreeLeaf K) → List (BTreeLeaf K)
  | [] => []
  | l :: ls =>
    if l.below k then l :: insertKey k ls
    else { l with keys := l.before k ++ k :: l.atLeast k } :: ls

def BTreeLeaf.split (id : Nat) (l : BTreeLeaf K) : Option (BTreeLeaf K × BTreeLeaf K) :=
  (l.keys.take (l.keys.length / 2)).getLast?.map fun sep =>
    ({ l with keys := l.keys.take (l.keys.length / 2), upper := some sep },
      { id := id, pre := some l.id, keys := l.keys.drop (l.keys.length / 2), upper := l.upper })

def splitLeaf (id : Nat) (k : K) : List (BTreeLeaf K) → Option (List (BTreeLeaf K))
  | [] => none
  | l :: ls =>
    if l.below k then (splitLeaf id k ls).map (l :: ·)
    else (l.split id).map fun (left, right) => left :: right :: ls

def contents (leaves : List (BTreeLeaf K)) : Finset K :=
  (leaves.flatMap BTreeLeaf.keys).toFinset

end Tigon.BTreeOLC
