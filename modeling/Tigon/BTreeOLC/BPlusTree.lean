import Mathlib.Algebra.Group.Nat.Defs
import Mathlib.Data.List.InsertIdx
import Mathlib.Order.Lattice

namespace Tigon.BTreeOLC.BPlusTree

open Function

-- maxEntries of BTreeLeaf and BTreeInner. `outside` is what a read of a key in front of
-- keys_ gives: max_key reads there when the leaf is empty.
structure Params (K : Type) where
  leafMax : Nat
  innerMax : Nat
  outside : K
deriving Repr

structure BTreeLeaf (K V : Type) where
  id : Nat
  entries : List (K × V)
deriving DecidableEq

structure BTreeInner (K C : Type) where
  keys : List K
  children : List C
deriving DecidableEq

@[reducible] def Node (K V : Type) : Nat → Type
  | 0 => BTreeLeaf K V
  | h + 1 => BTreeInner K (Node K V h)

-- A node after a step that may have split it: the parent gets the separator and the new
-- node to the right.
inductive Grown (K C : Type)
  | one (node : C)
  | two (left : C) (sep : K) (right : C)
deriving DecidableEq

-- count_ is a uint16_t, and entries from count_ on are not there.
def setCount {α : Type} (l : List α) : List α := l.take (l.length % 2 ^ 16)

section LowerBound

variable {K : Type} [LinearOrder K]

def linearSearch (keys : List K) (k : K) : Nat := keys.findIdx fun x => !decide (x < k)

-- The range is from `left` to before `right`. It shrinks in each round, so as many rounds as
-- there are keys are enough.
def binarySearch (keys : List K) (k : K) : Nat → Nat → Nat → Nat
  | 0, left, _ => left
  | fuel + 1, left, right =>
    if left < right then
      let mid := left + (right - 1 - left) / 2
      match keys[mid]? with
      | none => left
      | some x =>
        if x = k then mid
        else if x < k then binarySearch keys k fuel (mid + 1) right
        else binarySearch keys k fuel left mid
    else left

def lowerBound (keys : List K) (k : K) : Nat :=
  if keys.length < 128 then linearSearch keys k
  else binarySearch keys k keys.length 0 keys.length

end LowerBound

namespace BTreeLeaf

variable {K V : Type} [LinearOrder K]

def keys (l : BTreeLeaf K V) : List K := l.entries.map Prod.fst

def contains (l : BTreeLeaf K V) (k : K) : Bool := l.keys[lowerBound l.keys k]? = some k

def lookup (l : BTreeLeaf K V) (k : K) : Option V :=
  if l.contains k then l.entries[lowerBound l.keys k]?.map Prod.snd else none

def insert (l : BTreeLeaf K V) (k : K) (v : V) : BTreeLeaf K V :=
  if l.contains k then l
  else { l with entries := setCount (l.entries.insertIdx (lowerBound l.keys k) (k, v)) }

def erase (l : BTreeLeaf K V) (k : K) : BTreeLeaf K V :=
  if l.contains k then { l with entries := l.entries.eraseIdx (lowerBound l.keys k) } else l

def isFull (p : Params K) (l : BTreeLeaf K V) : Bool := l.entries.length = p.leafMax

def max_key (p : Params K) (l : BTreeLeaf K V) : K := l.keys.getLast?.getD p.outside

def left (l : BTreeLeaf K V) : BTreeLeaf K V :=
  { l with entries := l.entries.take (l.entries.length / 2) }

def right (newId : Nat) (l : BTreeLeaf K V) : BTreeLeaf K V :=
  ⟨newId, l.entries.drop (l.entries.length / 2)⟩

def split (p : Params K) (newId : Nat) (l : BTreeLeaf K V) : Grown K (BTreeLeaf K V) :=
  .two l.left (l.left.max_key p) (l.right newId)

def merge (l sibling : BTreeLeaf K V) : BTreeLeaf K V :=
  { l with entries := setCount (l.entries ++ sibling.entries) }

end BTreeLeaf

namespace BTreeInner

variable {K C : Type} [LinearOrder K]

def ofLists (keys : List K) (children : List C) : BTreeInner K C :=
  ⟨setCount keys, children.take ((setCount keys).length + 1)⟩

def isFull (p : Params K) (n : BTreeInner K C) : Bool := n.keys.length = p.innerMax - 1

def childFor (n : BTreeInner K C) (k : K) : Option C := n.children[lowerBound n.keys k]?

def setChild (n : BTreeInner K C) (pos : Nat) (child : C) : BTreeInner K C :=
  { n with children := n.children.set pos child }

-- The new child comes behind the one at the lower bound of its separator.
def insert (n : BTreeInner K C) (k : K) (child : C) : BTreeInner K C :=
  ofLists (n.keys.insertIdx (lowerBound n.keys k) k)
    (n.children.insertIdx (lowerBound n.keys k + 1) child)

def split (p : Params K) (n : BTreeInner K C) : Grown K (BTreeInner K C) :=
  let half := n.keys.length / 2
  .two ⟨n.keys.take (half - 1), n.children.take half⟩ (n.keys[half - 1]?.getD p.outside)
    ⟨n.keys.drop half, n.children.drop half⟩

def erase (n : BTreeInner K C) (pos : Nat) : BTreeInner K C :=
  ⟨n.keys.eraseIdx pos, n.children.eraseIdx (pos + 1)⟩

def place (n : BTreeInner K C) (pos : Nat) : Grown K C → BTreeInner K C
  | .one child => n.setChild pos child
  | .two left sep right => (n.setChild pos left).insert sep right

def setPair (n : BTreeInner K C) (pos : Nat) (left : C) (sep : K) (right : C) : BTreeInner K C :=
  ⟨n.keys.set pos sep, (n.children.set pos left).set (pos + 1) right⟩

end BTreeInner

namespace Node

variable {K V : Type} [LinearOrder K]

def count : (h : Nat) → Node K V h → Nat
  | 0, l => BTreeLeaf.entries l |>.length
  | _ + 1, n => BTreeInner.keys n |>.length

def maxEntries (p : Params K) : Nat → Nat
  | 0 => p.leafMax
  | _ + 1 => p.innerMax

-- kMergeThreshold is the float nearest to 0.4, which is 13421773 / 2^25.
def needMerge (p : Params K) (h : Nat) (n : Node K V h) : Bool :=
  n.count h * 2 ^ 25 < 13421773 * maxEntries p h

-- getSurplus is positive. In float arithmetic maxEntries * kMergeThreshold rounds to a number
-- with the same ceiling as 2 * maxEntries / 5.
def hasSurplus (p : Params K) (h : Nat) (n : Node K V h) : Bool :=
  (2 * maxEntries p h + 4) / 5 < n.count h

def hasEnoughSpace (p : Params K) : (h : Nat) → Node K V h → Nat → Bool
  | 0, l, need => count 0 l + need ≤ p.leafMax
  | h + 1, n, need => count (h + 1) n + need + 1 < p.innerMax

def getSubTreeMaxKey (p : Params K) : (h : Nat) → Node K V h → K
  | 0, l => BTreeLeaf.max_key p l
  | h + 1, n =>
    match (BTreeInner.children n)[(BTreeInner.keys n).length]? with
    | none => p.outside
    | some c => getSubTreeMaxKey p h c

def lastChildMaxKey (p : Params K) (h : Nat) (n : BTreeInner K (Node K V h)) : K :=
  (n.children[n.keys.length]?.map (getSubTreeMaxKey p h)).getD p.outside

def merge (p : Params K) : (h : Nat) → Node K V h → Node K V h → Node K V h
  | 0, a, b => BTreeLeaf.merge a b
  | h + 1, (a : BTreeInner K (Node K V h)), (b : BTreeInner K (Node K V h)) =>
    BTreeInner.ofLists (a.keys ++ lastChildMaxKey p h a :: b.keys) (a.children ++ b.children)

-- reallocNode with opt 1: the left node gets the first entry or child of the right one.
def borrowFromRight (p : Params K) :
    (h : Nat) → Node K V h → K → Node K V h → Node K V h × K × Node K V h
  | 0, (a : BTreeLeaf K V), sep, (b : BTreeLeaf K V) =>
    match b.entries with
    | [] => (a, sep, b)
    | e :: rest =>
      let a' : BTreeLeaf K V := { a with entries := setCount (a.entries ++ [e]) }
      (a', a'.max_key p, { b with entries := rest })
  | _ + 1, (a : BTreeInner K (Node K V _)), sep, (b : BTreeInner K (Node K V _)) =>
    match b.keys, b.children with
    | k :: keys, c :: children =>
      (BTreeInner.ofLists (a.keys ++ [sep]) (a.children ++ [c]), k, ⟨keys, children⟩)
    | _, _ => (a, sep, b)

-- reallocNode with opt 0: the right node gets the last entry or child of the left one.
def borrowFromLeft (p : Params K) :
    (h : Nat) → Node K V h → K → Node K V h → Node K V h × K × Node K V h
  | 0, (a : BTreeLeaf K V), sep, (b : BTreeLeaf K V) =>
    match a.entries.getLast? with
    | none => (a, sep, b)
    | some e =>
      let a' : BTreeLeaf K V := { a with entries := a.entries.dropLast }
      (a', a'.max_key p, { b with entries := setCount (e :: b.entries) })
  | _ + 1, (a : BTreeInner K (Node K V _)), sep, (b : BTreeInner K (Node K V _)) =>
    match a.keys.getLast?, a.children.getLast? with
    | some k, some c =>
      (⟨a.keys.dropLast, a.children.dropLast⟩, k,
        BTreeInner.ofLists (sep :: b.keys) (c :: b.children))
    | _, _ => (a, sep, b)

def leaves : (h : Nat) → Node K V h → List (BTreeLeaf K V)
  | 0, l => [l]
  | h + 1, n => (BTreeInner.children n).flatMap (leaves h)

def leafFor : (h : Nat) → Node K V h → K → Option (BTreeLeaf K V)
  | 0, l, _ => some l
  | h + 1, (n : BTreeInner K (Node K V h)), k =>
    (n.childFor k).bind fun c => leafFor h c k

def lookup (h : Nat) (n : Node K V h) (k : K) : Option V :=
  (leafFor h n k).bind fun l => l.lookup k

-- The first full inner node on the way to a key is split. None: there is no such node.
def splitFull (p : Params K) : (h : Nat) → Node K V h → K → Option (Grown K (Node K V h))
  | 0, _, _ => none
  | h + 1, (n : BTreeInner K (Node K V h)), k =>
    if n.isFull p then some (n.split p)
    else (n.childFor k).bind fun c => (splitFull p h c k).map fun g =>
      .one (n.place (lowerBound n.keys k) g)

def modifyLeaf (f : BTreeLeaf K V → Grown K (BTreeLeaf K V)) :
    (h : Nat) → Node K V h → K → Grown K (Node K V h)
  | 0, l, _ => f l
  | h + 1, (n : BTreeInner K (Node K V h)), k =>
    match n.childFor k with
    | none => .one n
    | some c => .one (n.place (lowerBound n.keys k) (modifyLeaf f h c k))

end Node

-- What EraseMerge has done to the parent: whether it has merged two children and whether it
-- goes on with the parent itself. Two leaves that were merged are given to the caller.
structure Rebalanced (K V : Type) (C : Type) where
  node : C
  merged : Bool
  up : Bool
  leaves : Option (BTreeLeaf K V × BTreeLeaf K V)

section EraseMerge

variable {K V : Type} [LinearOrder K]

def mergedLeaves : (h : Nat) → Node K V h → Node K V h → Option (BTreeLeaf K V × BTreeLeaf K V)
  | 0, a, b => some (a, b)
  | _ + 1, _, _ => none

variable (p : Params K) (h : Nat) (parent : BTreeInner K (Node K V h))

def mergePair (pos : Nat) (left right : Node K V h) :
    Rebalanced K V (BTreeInner K (Node K V h)) :=
  let parent' := (parent.setChild pos (left.merge p h right)).erase pos
  ⟨parent', true, Node.needMerge (V := V) p (h + 1) parent', mergedLeaves h left right⟩

def borrowPair (pos : Nat) (r : Node K V h × K × Node K V h) :
    Rebalanced K V (BTreeInner K (Node K V h)) :=
  ⟨parent.setPair pos r.1 r.2.1 r.2.2, false, false, none⟩

-- The child at childPos is to borrow from a sibling or to be merged with one.
def EraseMerge (childPos : Nat) : Rebalanced K V (BTreeInner K (Node K V h)) :=
  match parent.children[childPos]? with
  | none => ⟨parent, false, false, none⟩
  | some child =>
    let leftSibling := if 0 < childPos ∧ childPos - 1 < parent.keys.length then
      parent.children[childPos - 1]? else none
    let rightSibling := if childPos + 1 ≤ parent.keys.length then
      parent.children[childPos + 1]? else none
    let sepLeft := parent.keys[childPos - 1]?.getD p.outside
    let sepRight := parent.keys[childPos]?.getD p.outside
    match leftSibling.filter (Node.hasSurplus p h), rightSibling.filter (Node.hasSurplus p h),
      leftSibling.filter (Node.hasEnoughSpace p h · (child.count h)),
      rightSibling.filter (Node.hasEnoughSpace p h · (child.count h)) with
    | some left, _, _, _ =>
      borrowPair h parent (childPos - 1) (Node.borrowFromLeft p h left sepLeft child)
    | none, some right, _, _ =>
      borrowPair h parent childPos (Node.borrowFromRight p h child sepRight right)
    | none, none, some left, _ => mergePair p h parent (childPos - 1) left child
    | none, none, none, some right => mergePair p h parent childPos child right
    -- An only child: the parent is merged first, so that the child gets siblings.
    | none, none, none, none =>
      ⟨parent, false, leftSibling.isNone && rightSibling.isNone, none⟩

end EraseMerge

-- The way back of a removal: `up` says that EraseMerge is called for the node.
structure Removed (K V : Type) (C : Type) extends Rebalanced K V C where
  success : Bool

-- The entry of the key stays if `should_remove` does not hold.
def Node.remove {K V : Type} [LinearOrder K] (p : Params K) (should_remove : Bool) :
    (h : Nat) → Node K V h → K → Removed K V (Node K V h)
  | 0, (l : BTreeLeaf K V), k =>
    let l' := if should_remove then l.erase k else l
    ⟨⟨l', false, Node.needMerge (V := V) p 0 l', none⟩, should_remove && l.contains k⟩
  | h + 1, (n : BTreeInner K (Node K V h)), k =>
    match n.childFor k with
    | none => ⟨⟨n, false, false, none⟩, false⟩
    | some c =>
      let r := Node.remove p should_remove h c k
      let pos := lowerBound n.keys k
      if r.up then
        let m := EraseMerge p h (n.setChild pos r.node) pos
        ⟨{ m with leaves := m.leaves <|> r.leaves }, r.success⟩
      else ⟨⟨n.setChild pos r.node, false, false, r.leaves⟩, r.success⟩

-- The tree with the links between its leaves. A leaf that was merged into another is not
-- freed: `retired` has the entries it was left with.
structure Tree (K V : Type) where
  height : Nat
  root : Node K V height
  newId : Nat
  pre_ : Nat → Option Nat
  next_ : Nat → Option Nat
  retired : Nat → List (K × V)

namespace Tree

variable {K V : Type}

def empty : Tree K V where
  height := 0
  root := (⟨0, []⟩ : BTreeLeaf K V)
  newId := 1
  pre_ := fun _ => none
  next_ := fun _ => none
  retired := fun _ => []

def grow (t : Tree K V) : Grown K (Node K V t.height) → Tree K V
  | .one root => { t with root := root }
  | .two left sep right =>
    { t with
      height := t.height + 1
      root := (⟨[sep], [left, right]⟩ : BTreeInner K (Node K V t.height)) }

-- The links that BTreeLeaf::split sets. The leaf behind the new one is not told.
def linkSplit (t : Tree K V) (l : BTreeLeaf K V) : Tree K V :=
  { t with
    newId := t.newId + 1
    pre_ := update t.pre_ t.newId (some l.id)
    next_ := update (update t.next_ t.newId (t.next_ l.id)) l.id
      (some t.newId) }

def linkMerge (t : Tree K V) : Option (BTreeLeaf K V × BTreeLeaf K V) → Tree K V
  | none => t
  | some (l, sibling) =>
    { t with
      pre_ := match t.next_ sibling.id with
        | none => t.pre_
        | some next => update t.pre_ next (some l.id)
      next_ := update t.next_ l.id (t.next_ sibling.id)
      retired := update t.retired sibling.id sibling.entries }

variable [LinearOrder K] (p : Params K)

def lookup (t : Tree K V) (k : K) : Option V := t.root.lookup t.height k

-- insert at the leaf, which is split first if it is full.
def insertAt (newId : Nat) (k : K) (v : V) (l : BTreeLeaf K V) : Grown K (BTreeLeaf K V) :=
  if l.isFull p then
    if l.left.max_key p < k then
      .two l.left (l.left.max_key p) ((l.right newId).insert k v)
    else .two (l.left.insert k v) (l.left.max_key p) (l.right newId)
  else .one (l.insert k v)

def insertTarget (newId : Nat) (k : K) (l : BTreeLeaf K V) : BTreeLeaf K V :=
  if l.isFull p then if l.left.max_key p < k then l.right newId else l.left else l

def insertLeaf (t : Tree K V) (k : K) (v : V) : Tree K V × Bool :=
  let t' := t.grow (t.root.modifyLeaf (insertAt p t.newId k v) t.height k)
  match t.root.leafFor t.height k with
  | none => (t', false)
  | some l => (if l.isFull p then t'.linkSplit l else t', !(insertTarget p t.newId k l).contains k)

-- Full inner nodes are split on the way down, and the descent starts again after each split.
-- None: more restarts than `fuel`.
def splitPath : Nat → Tree K V → K → Option (Tree K V)
  | 0, _, _ => none
  | fuel + 1, t, k =>
    match t.root.splitFull p t.height k with
    | some g => splitPath fuel (t.grow g) k
    | none => some t

def restarts (t : Tree K V) : Nat := (t.height + 1) * (2 * t.height + 2)

def insert (t : Tree K V) (k : K) (v : V) : Option (Tree K V × Bool) :=
  (splitPath p t.restarts t k).map fun t => t.insertLeaf p k v

-- A root of which two children were merged into its only one gives way to that one.
def shrink (t : Tree K V) : (h : Nat) → Rebalanced K V (Node K V h) → Tree K V
  | 0, r => { t with height := 0, root := r.node }
  | h + 1, r =>
    let n : BTreeInner K (Node K V h) := r.node
    match r.merged && n.keys.isEmpty, n.children with
    | true, [c] => { t with height := h, root := c }
    | _, _ => { t with height := h + 1, root := n }

def removeIf (should_remove : Bool) (t : Tree K V) (k : K) : Tree K V × Bool :=
  let r := t.root.remove p should_remove t.height k
  ((t.shrink t.height r.toRebalanced).linkMerge r.leaves, r.success)

def remove (t : Tree K V) (k : K) : Tree K V × Bool := t.removeIf p true k

end Tree

end Tigon.BTreeOLC.BPlusTree
