import LogosChain.Base.Except
import LogosChain.Merkle.Tree

/-!
# The dynamic Merkle tree (`merkle/dynamic-merkle`)

A binary tree of height 32 in which a subtree without a leaf is a single node. An insertion takes
the lowest free position; a removal joins empty siblings. Every assertion and panic of the source is
an error here (`Panic`). No machine word overflows at a height of at most 33.
-/

namespace Logos.Merkle

open Base

/-- The values of the tree and how two are combined. -/
class MerkleHasher (Hash : Type) where
  emptyValue : Hash
  compress : Hash → Hash → Hash

/-- The assertions and panics of the tree. -/
inductive Panic where
  /-- "Height{height} must be <=32" -/
  | emptyRootHeight (height : Nat)
  /-- "empty sibling subtrees must have equal heights" -/
  | emptySiblingHeights (left right : Nat)
  /-- "sibling subtrees must have equal heights" -/
  | siblingHeights (left right : Nat)
  /-- "Index {} out of bounds for inner node with height {}" -/
  | indexOutOfBounds (index height : Nat)
  /-- "Index {} out of bounds for node with height {}" -/
  | pathOutOfBounds (index height : Nat)
  /-- "Cannot expand an empty subtree more than one node at a time" -/
  | expandsTooMuch
  /-- "Cannot insert into a terminal node with index !=0" -/
  | terminalIndex
  /-- "Cannot insert into a non-empty leaf node" -/
  | insertIntoLeaf
  /-- "Cannot insert into a non-terminal node" -/
  | insertIntoInner
  /-- "Cannot remove from a empty / non-leaf node" -/
  | removeFromNonLeaf
  /-- "Cannot update an empty / non-leaf node" -/
  | updateNonLeaf
  /-- "max capacity reached, cannot insert more items" -/
  | maxCapacityReached
  /-- "tree has capacity but no empty position" -/
  | noEmptyPosition
  /-- "Index out of bounds" -/
  | outOfBounds
  /-- "Cannot get root from a leaf node, expected an inner node or empty node" -/
  | rootFromLeaf
  /-- "indices must be strictly increasing and within bounds" -/
  | notIncreasing
  /-- "all indices must be within tree capacity" -/
  | beyondCapacity
deriving DecidableEq, Repr

/-- A call reports an error or panics. -/
inductive Failure (ε : Type) where
  | error (e : ε)
  | panic (p : Panic)
deriving DecidableEq, Repr

variable {Hash : Type}

/-- A node. An empty one of height zero is a free leaf, a larger one a range of them. -/
inductive Node (Hash : Type) where
  | inner (left right : Node Hash) (value : Hash)
      (rightSubtreeSize leftSubtreeSize height : Nat)
  | empty (height : Nat)
  | leaf (value : Hash)
deriving DecidableEq, Repr

/-- The sibling on a path, on the left or on the right. -/
inductive MerkleNode (Hash : Type) where
  | left (value : Hash)
  | right (value : Hash)
deriving DecidableEq, Repr

/-- The cached roots of empty subtrees (`empty_subtree_root`). -/
def emptySubtreeRoot [MerkleHasher Hash] (height : Nat) : Except Panic Hash := do
  failIf (treeHeightExceptRoot < height) (.emptyRootHeight height)
  return FlatTree.emptySubtreeRoot MerkleHasher.compress MerkleHasher.emptyValue height

namespace Node

/-- How many leaves there are. -/
def size : Node Hash → Nat
  | inner _ _ _ rightSubtreeSize leftSubtreeSize _ => leftSubtreeSize + rightSubtreeSize
  | leaf _ => 1
  | empty _ => 0

def height : Node Hash → Nat
  | inner _ _ _ _ _ height => height
  | empty height => height
  | leaf _ => 0

/-- Size of the full subtree. -/
def capacity (n : Node Hash) : Nat := 2 ^ n.height

def isLeaf : Node Hash → Bool
  | leaf _ => true
  | _ => false

/-- The lowest free position. -/
def firstEmptyIndex : Node Hash → Option Nat
  | inner left right _ _ _ _ =>
    if left.size < left.capacity then left.firstEmptyIndex
    else if right.size < right.capacity then
      right.firstEmptyIndex.map fun index => left.capacity + index
    else none
  | empty _ => some 0
  | leaf _ => none

variable [MerkleHasher Hash]

/-- The hash of a node. -/
def value : Node Hash → Except Panic Hash
  | inner _ _ value _ _ _ => .ok value
  | leaf value => .ok value
  | empty height => emptySubtreeRoot height

/-- The hash of two children. -/
def hash (left right : Node Hash) : Except Panic Hash := do
  let l ← left.value
  let r ← right.value
  return MerkleHasher.compress l r

/-- Joins two subtrees; two empty ones are one empty subtree. -/
def newInner (left right : Node Hash) : Except Panic (Node Hash) :=
  match left, right with
  | .empty leftHeight, .empty rightHeight => do
    failIf (leftHeight ≠ rightHeight) (.emptySiblingHeights leftHeight rightHeight)
    return .empty (leftHeight + 1)
  | left, right => do
    failIf (left.height ≠ right.height) (.siblingHeights left.height right.height)
    let value ← hash left right
    return .inner left right value right.size left.size (left.height + 1)

/-- `insert_or_modify` in an empty subtree: expands it to the free leaf. -/
def insertIntoEmpty (f : Node Hash → Except Panic (Node Hash)) :
    Nat → Nat → Except Panic (Node Hash)
  | 0, index => do
    failIf (index ≠ 0) .terminalIndex
    f (.empty 0)
  | height + 1, index => do
    failIf (index ≠ 0) .expandsTooMuch
    let left ← insertIntoEmpty f height index
    newInner left (.empty height)

/-- Applies a function to a leaf and rebuilds the nodes above. -/
def insertOrModify (f : Node Hash → Except Panic (Node Hash)) :
    Node Hash → Nat → Except Panic (Node Hash)
  | .inner left right value rightSize leftSize height, index => do
    failIf (capacity (.inner left right value rightSize leftSize height) ≤ index)
      (.indexOutOfBounds index height)
    if index < left.capacity then
      let left ← insertOrModify f left index
      newInner left right
    else
      let right ← insertOrModify f right (index - left.capacity)
      newInner left right
  | .empty height, index => insertIntoEmpty f height index
  | .leaf value, index => do
    failIf (index ≠ 0) .terminalIndex
    f (.leaf value)

/-- Puts a leaf in. -/
def insertAt (n : Node Hash) (index : Nat) (value : Hash) : Except Panic (Node Hash) :=
  insertOrModify (fun
    | .empty _ => .ok (.leaf value)
    | .leaf _ => .error .insertIntoLeaf
    | .inner .. => .error .insertIntoInner) n index

/-- Takes a leaf out. -/
def removeAt (n : Node Hash) (index : Nat) : Except Panic (Node Hash) :=
  insertOrModify (fun
    | .leaf _ => .ok (.empty 0)
    | _ => .error .removeFromNonLeaf) n index

/-- Replaces a leaf. -/
def updateAt (n : Node Hash) (index : Nat) (value : Hash) : Except Panic (Node Hash) :=
  insertOrModify (fun
    | .leaf _ => .ok (.leaf value)
    | _ => .error .updateNonLeaf) n index

/-- Adds the sibling to a path, unless it has the full length. -/
def pushSibling (sibling : Hash → MerkleNode Hash) (other : Node Hash) :
    Option (List (MerkleNode Hash)) → Except Panic (Option (List (MerkleNode Hash)))
  | none => .ok none
  | some path =>
    if treeHeightExceptRoot ≤ path.length then .ok none
    else do
      let value ← other.value
      return some (path ++ [sibling value])

/-- The siblings from the leaf at an index up to the root. -/
def path : Node Hash → Nat → Except Panic (Option (List (MerkleNode Hash)))
  | .inner left right value rightSize leftSize height, index => do
    failIf (capacity (.inner left right value rightSize leftSize height) ≤ index)
      (.pathOutOfBounds index height)
    if index < left.capacity then
      let path ← left.path index
      pushSibling .right right path
    else
      let path ← right.path (index - left.capacity)
      pushSibling .left left path
  | .leaf _, _ => .ok (some [])
  | .empty _, _ => .ok none

/-- Why a deserialized tree is refused. -/
inductive Invalid where
  /-- "empty subtree height exceeds tree height" -/
  | emptySubtreeHeight
  /-- "sibling subtrees have different heights" -/
  | siblingHeights
  /-- "tree height exceeds fixed tree height" -/
  | treeHeight
  /-- "dynamic Merkle tree root has an invalid shape" -/
  | rootShape
deriving DecidableEq, Repr

/-- Checks a deserialized node and computes its fields again. -/
def rebuildAndValidate : Node Hash → Except (Failure Invalid) (Node Hash)
  | .empty height => do
    failIf (treeHeightExceptRoot < height) (.error .emptySubtreeHeight)
    return .empty height
  | .leaf value => .ok (.leaf value)
  | .inner left right _ _ _ _ => do
    let left ← left.rebuildAndValidate
    let right ← right.rebuildAndValidate
    failIf (left.height ≠ right.height) (.error .siblingHeights)
    let node ← (newInner left right).mapError .panic
    failIf (treeHeightExceptRoot < node.height) (.error .treeHeight)
    return node

end Node

/-- A tree by its root node. -/
structure DynamicMerkleTree (Hash : Type) where
  root : Node Hash
deriving DecidableEq, Repr

namespace DynamicMerkleTree

def new : DynamicMerkleTree Hash := ⟨.empty treeHeightExceptRoot⟩

def size (t : DynamicMerkleTree Hash) : Nat := t.root.size

variable [MerkleHasher Hash]

/-- Inserts a leaf at the lowest free position. -/
def insert (t : DynamicMerkleTree Hash) (value : Hash) :
    Except Panic (DynamicMerkleTree Hash × Nat) := do
  failIf (t.root.capacity ≤ t.size) .maxCapacityReached
  let index ← okOr t.root.firstEmptyIndex .noEmptyPosition
  let root ← t.root.insertAt index value
  return (⟨root⟩, index)

/-- Takes the leaf at a position out. -/
def remove (t : DynamicMerkleTree Hash) (index : Nat) : Except Panic (DynamicMerkleTree Hash) := do
  failIf (t.root.capacity ≤ index) .outOfBounds
  let root ← t.root.removeAt index
  return ⟨root⟩

/-- Replaces the leaf at a position. -/
def update (t : DynamicMerkleTree Hash) (index : Nat) (value : Hash) :
    Except Panic (DynamicMerkleTree Hash) := do
  failIf (t.root.capacity ≤ index) .outOfBounds
  let root ← t.root.updateAt index value
  return ⟨root⟩

def rootHash (t : DynamicMerkleTree Hash) : Except Panic Hash :=
  match t.root with
  | .inner _ _ value _ _ _ => .ok value
  | .leaf _ => .error .rootFromLeaf
  | .empty height => emptySubtreeRoot height

/-- The Merkle path of an index, with a node for each level. -/
def path (t : DynamicMerkleTree Hash) (index : Nat) : Except Panic (Option (List (MerkleNode Hash))) := do
  let path ← t.root.path index
  return path.filter fun path => path.length = treeHeightExceptRoot

/-- Whether the next item is at a position below a bound. -/
def nextBelow (items : List (Nat × Hash)) (bound : Nat) : Bool := items.head?.any (·.1 < bound)

/-- The subtree at a position, and the items left. -/
def buildSparseSubtree : Nat → Nat → List (Nat × Hash) →
    Except Panic (Node Hash × List (Nat × Hash))
  | height, _, [] => .ok (.empty height, [])
  | 0, subtreeStart, (position, value) :: items => do
    failIf (¬ (subtreeStart ≤ position ∧ position - subtreeStart < 2 ^ 0)) .notIncreasing
    return (.leaf value, items)
  | height + 1, subtreeStart, (position, value) :: items => do
    failIf (¬ (subtreeStart ≤ position ∧ position - subtreeStart < 2 ^ (height + 1))) .notIncreasing
    let midpoint := subtreeStart + 2 ^ (height + 1) / 2
    let items := (position, value) :: items
    let (left, items) ← (if nextBelow items midpoint then
        buildSparseSubtree height subtreeStart items
      else .ok (.empty height, items) : Except Panic (Node Hash × List (Nat × Hash)))
    let (right, items) ← (if nextBelow items (subtreeStart + 2 ^ (height + 1)) then
        buildSparseSubtree height midpoint items
      else .ok (.empty height, items) : Except Panic (Node Hash × List (Nat × Hash)))
    let node ← Node.newInner left right
    return (node, items)

/-- The tree with each leaf at its position. -/
def fromSortedItems (items : List (Nat × Hash)) : Except Panic (DynamicMerkleTree Hash) := do
  let (root, items) ← buildSparseSubtree treeHeightExceptRoot 0 items
  failIf (items ≠ []) .beyondCapacity
  return ⟨root⟩

/-- The tree from the node that was serialized. -/
def deserialize (raw : Node Hash) : Except (Failure Node.Invalid) (DynamicMerkleTree Hash) := do
  let root ← raw.rebuildAndValidate
  failIf (root.height ≠ treeHeightExceptRoot ∨ root.isLeaf) (.error .rootShape)
  return ⟨root⟩

end DynamicMerkleTree

end Logos.Merkle
