import LogosChain.Merkle.Tree

/-!
# The Merkle mountain range (`mmr`)

A range keeps the roots of the perfect subtrees over the elements pushed so far, the newest on top.
Leaves have height 1. A push merges the roots of equal height from the top down.
-/

namespace Logos

/-- The root of a perfect subtree, with its height. -/
structure MmrRoot (H : Type) where
  root : H
  height : Nat
deriving DecidableEq

/-- A range (`MerkleMountainRange`): its peaks, the newest first. -/
structure MerkleMountainRange (H : Type) where
  roots : List (MmrRoot H)
deriving DecidableEq

namespace MerkleMountainRange

variable {H : Type}

/-- The largest height of a range (`ACCEPTABLE_MAX_HEIGHT`). -/
def maxHeight : Nat := 33

def empty : MerkleMountainRange H := ⟨[]⟩

/-- Merges the peaks of the height of the last root into it. -/
def mergePeaks (compress : H → H → H) : List (MmrRoot H) → MmrRoot H → List (MmrRoot H)
  | [], last => [last]
  | r :: rs, last =>
    if last.height = r.height then mergePeaks compress rs ⟨compress r.root last.root, last.height + 1⟩
    else last :: r :: rs

/-- Adds an element, unless a peak has the largest height. -/
def push (compress : H → H → H) (m : MerkleMountainRange H) (elem : H) :
    Option (MerkleMountainRange H) :=
  if (m.roots.head?.map (·.height)) = some maxHeight then none
  else some ⟨mergePeaks compress m.roots ⟨elem, 1⟩⟩

/-- Lifts a root to a larger height, with nothing to its right. -/
def padTo (compress : H → H → H) (empty : H) (root : H) (height : Nat) : Nat → H
  | 0 => root
  | n + 1 =>
    padTo compress empty
      (compress root (FlatTree.emptySubtreeRoot compress empty (height - 1))) (height + 1) n

/-- Joins the peaks, from the lowest to the highest. -/
def joinPeaks (compress : H → H → H) (empty : H) : H → Nat → List (MmrRoot H) → H
  | root, height, [] => padTo compress empty root height (maxHeight - height)
  | root, height, r :: rs =>
    joinPeaks compress empty
      (compress r.root (padTo compress empty root height (r.height - height)))
      (max height r.height + 1) rs

/-- The root of the complete tree over the elements. -/
def frontierRoot (compress : H → H → H) (empty : H) (m : MerkleMountainRange H) : H :=
  match m.roots with
  | [] => FlatTree.emptySubtreeRoot compress empty (maxHeight - 1)
  | r :: rs => joinPeaks compress empty r.root r.height rs

/-- How many elements were pushed. -/
def len (m : MerkleMountainRange H) : Nat := (m.roots.map fun r => 2 ^ (r.height - 1)).sum

end MerkleMountainRange

end Logos
