import Tigon.BTreeOLC.BPlusTree

namespace Tigon.BTreeOLC.BPlusTree

-- The tuples that a processor is called with besides the one of the key. None is nullptr.
structure Adjacent (K V : Type) where
  prev : Option (K × V)
  next : Option (K × V)
deriving DecidableEq

-- How insert_and_process_adjacent_tuples ends. It is stuck where CHECK(nextLeaf != nullptr)
-- fails, or where it reads keys_[0] of a leaf that has no entry.
inductive Inserted (K V : Type)
  | present
  | stuck
  | called (adjacent : Adjacent K V) (success : Bool)
deriving DecidableEq

namespace Tree

variable {K V : Type}

def entriesAt (t : Tree K V) (id : Nat) : List (K × V) :=
  match (t.root.leaves t.height).find? fun l => l.id == id with
  | some l => l.entries
  | none => t.retired id

def prevTuple (t : Tree K V) (l : BTreeLeaf K V) (pos : Nat) : Option (K × V) :=
  if 0 < pos then l.entries[pos - 1]?
  else (t.pre_ l.id).bind fun prevLeaf => (t.entriesAt prevLeaf).getLast?

-- The tuple at a position of a leaf, which is in the next leaf if the leaf ends there.
def nextTuple (t : Tree K V) (l : BTreeLeaf K V) (pos : Nat) : Option (K × V) :=
  if pos < l.entries.length then l.entries[pos]?
  else (t.next_ l.id).bind fun nextLeaf => (t.entriesAt nextLeaf).head?

variable [LinearOrder K] (p : Params K)

def lookupForNextKeyUpdate (t : Tree K V) (k : K) : Option ((K × V) × Adjacent K V) :=
  match t.root.leafFor t.height k with
  | none => none
  | some l =>
    let pos := lowerBound l.keys k
    if l.contains k then
      l.entries[pos]?.map fun cur => (cur, ⟨t.prevTuple l pos, t.nextTuple l (pos + 1)⟩)
    else none

def remove_and_process_adjacent_tuples (t : Tree K V) (k : K)
    (processor : K × V → Adjacent K V → Bool) :
    Option ((K × V) × Adjacent K V) × Tree K V × Bool :=
  match t.lookupForNextKeyUpdate k with
  | none => (none, t.removeIf p false k)
  | some (cur, adjacent) =>
    (some (cur, adjacent), t.removeIf p (processor cur adjacent) k)

def splitLeaf (t : Tree K V) (k : K) (l : BTreeLeaf K V) : Tree K V :=
  (t.grow (t.root.modifyLeaf (BTreeLeaf.split p t.newId) t.height k)).linkSplit l

def insertBetween (t : Tree K V) (k : K) (v : V) (processor : Adjacent K V → Bool)
    (l : BTreeLeaf K V) : Tree K V × Inserted K V :=
  if l.contains k then (t, .present)
  else
    let pos := lowerBound l.keys k
    match t.nextTuple l pos with
    | none => (t, .stuck)
    | some next =>
      let adjacent := ⟨t.prevTuple l pos, some next⟩
      if processor adjacent then
        (t.grow (t.root.modifyLeaf (fun l => .one (l.insert k v)) t.height k),
          .called adjacent true)
      else (t, .called adjacent false)

-- None: more splits of leaves than `fuel`.
def insertAdjacentFrom : Nat → Tree K V → K → V → (Adjacent K V → Bool) →
    Option (Tree K V × Inserted K V)
  | 0, _, _, _, _ => none
  | fuel + 1, t, k, v, processor =>
    (splitPath p t.restarts t k).bind fun t => (t.root.leafFor t.height k).bind fun l =>
      if l.isFull p then insertAdjacentFrom fuel (t.splitLeaf p k l) k v processor
      else some (t.insertBetween k v processor l)

-- Half of a full leaf is not full, so that one split is enough.
def insert_and_process_adjacent_tuples (t : Tree K V) (k : K) (v : V)
    (processor : Adjacent K V → Bool) : Option (Tree K V × Inserted K V) :=
  insertAdjacentFrom p 2 t k v processor

end Tree

inductive Mutation (K V : Type)
  | insert (k : K) (v : V)
  | remove (k : K)
  | insertAdjacent (k : K) (v : V) (processor : Adjacent K V → Bool)
  | removeAdjacent (k : K) (processor : K × V → Adjacent K V → Bool)

-- None: the call is stuck.
def Tree.mutate {K V : Type} [LinearOrder K] (p : Params K) (t : Tree K V) :
    Mutation K V → Option (Tree K V)
  | .insert k v => (t.insert p k v).map Prod.fst
  | .remove k => some (t.remove p k).1
  | .insertAdjacent k v processor =>
    match t.insert_and_process_adjacent_tuples p k v processor with
    | none | some (_, .stuck) => none
    | some (t', _) => some t'
  | .removeAdjacent k processor => some (t.remove_and_process_adjacent_tuples p k processor).2.1

end Tigon.BTreeOLC.BPlusTree
