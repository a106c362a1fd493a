import LogosChain.Base.Map

/-!
# The Merkle store (`merkle/tree`, `merkle/utxotree`)

A store gives each key a position of a binary tree of height 32, kept as the list of its leaves;
every position past the end is free. Inserting under a key that is there leaves its old leaf in
place (`MerkleTree::insert`). A store holds fewer than `2 ^ 32` items, so the panics of a full tree
are left out.
-/

namespace Logos

open Base

/-- Height of the tree without the root. -/
def treeHeightExceptRoot : Nat := 32

/-- Items under keys with positions (`MerkleTree`, `UtxoTree`). -/
structure FlatTree (K V : Type) [DecidableEq K] where
  leaves : List (Option K)
  items : Map K (V × Nat)

namespace FlatTree

variable {K V : Type} [DecidableEq K]

def empty : FlatTree K V := ⟨[], ∅⟩

def get (t : FlatTree K V) (k : K) : Option V := (t.items.lookup k).map (·.1)

def contains (t : FlatTree K V) (k : K) : Bool := (t.items.lookup k).isSome

/-- The lowest free position. -/
def firstEmptyIndex (t : FlatTree K V) : Nat := t.leaves.findIdx (·.isNone)

/-- Puts an item under a key at the lowest free position. -/
def insert (t : FlatTree K V) (k : K) (v : V) : FlatTree K V :=
  let pos := t.firstEmptyIndex
  { leaves := if pos < t.leaves.length then t.leaves.set pos (some k) else t.leaves ++ [some k]
    items := t.items.insert k (v, pos) }

/-- Takes the item under a key out and frees its position. -/
def remove (t : FlatTree K V) (k : K) : Option (FlatTree K V × V) :=
  (t.items.lookup k).map fun e => (⟨t.leaves.set e.2 none, t.items.erase k⟩, e.1)

variable {H : Type} (compress : H → H → H) (empty : H)

/-- The root of a subtree of a height with no leaf. -/
def emptySubtreeRoot : Nat → H
  | 0 => empty
  | h + 1 => compress (emptySubtreeRoot h) (emptySubtreeRoot h)

/-- The root of the subtree of a height over a list of leaves. -/
def subtreeRoot (leaf : K → H) : Nat → List (Option K) → H
  | 0, ls => ((ls.head?.join).map leaf).getD empty
  | h + 1, ls =>
    if ls.all (·.isNone) then emptySubtreeRoot compress empty (h + 1)
    else compress (subtreeRoot leaf h (ls.take (2 ^ h))) (subtreeRoot leaf h (ls.drop (2 ^ h)))

def root (leaf : K → H) (t : FlatTree K V) : H :=
  subtreeRoot compress empty leaf treeHeightExceptRoot t.leaves

theorem get_insert (t : FlatTree K V) (k k' : K) (v : V) :
    (t.insert k v).get k' = if k' = k then some v else t.get k' := by
  rw [get, insert, get, Map.lookup_insert_ite]
  split <;> simp

theorem remove_eq_some {t t' : FlatTree K V} {k : K} {v : V} (h : t.remove k = some (t', v)) :
    t.get k = some v ∧ ∀ k', t'.get k' = if k' = k then none else t.get k' := by
  obtain ⟨e, he, hte⟩ := Option.map_eq_some_iff.mp h
  grind [get, Map.lookup_erase_ite]

/-- The sum of `f` over the items. -/
def total (f : V → Nat) (t : FlatTree K V) : Nat := t.items.sum fun _ e => f e.1

theorem total_insert (f : V → Nat) {t : FlatTree K V} {k : K} (v : V) (h : t.get k = none) :
    (t.insert k v).total f = f v + t.total f := by
  rw [total, insert, Map.sum_insert _ (Option.map_eq_none_iff.mp h)]
  rfl

theorem total_insert_le (f : V → Nat) (t : FlatTree K V) (k : K) (v : V) :
    (t.insert k v).total f ≤ f v + t.total f :=
  Map.sum_insert_le (fun _ (e : V × Nat) => f e.1) t.items k (v, t.firstEmptyIndex)

theorem total_remove (f : V → Nat) {t t' : FlatTree K V} {k : K} {v : V}
    (h : t.remove k = some (t', v)) : t.total f = f v + t'.total f := by
  obtain ⟨e, he, hte⟩ := Option.map_eq_some_iff.mp h
  cases hte
  rw [total, Map.sum_erase he]
  rfl

end FlatTree

end Logos
