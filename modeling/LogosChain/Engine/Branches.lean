import LogosChain.Base.Ancestry
import LogosChain.Base.Map
import LogosChain.Time.Era
import Mathlib.Order.Lattice.Nat

/-!
# The block tree (`consensus/cryptarchia-engine/src/lib.rs`, `Branches`)

The tree has the blocks with their chain lengths (`Branch`), the tips and the latest immutable block
(the LIB). The walks of the source are loops over parent links; here each has a fuel of one more
than the length of its first block. Each operation that iterates over the tips takes a possible
order of them (`TipOrder`).
-/

namespace Logos.Engine

open Base

variable {Id : Type}

/-- A block of the tree (`Branch`). `length` is a `u64`. -/
structure Branch (Id : Type) where
  id : Id
  parent : Id
  slot : Nat
  length : Nat
  /-- The slots of the uncles the block references. -/
  uncleSlots : List Nat
  deriving DecidableEq, Repr

/-- `Error`, of `receive_block`. The source never makes its `OrphanMissing`. -/
inductive Error (Id : Type) where
  | parentMissing (parent : Id)
  | orphanMissing (id : Id)
  | invalidSlot (parent : Id)
  deriving DecidableEq, Repr

/-- The panics: an `expect`, or the index of a map at a missing key. -/
inductive Panic where
  /-- "New branch height overflows." -/
  | heightOverflow
  /-- "local chain and fork must have a common ancestor" (fork choice, `prunable_forks`). -/
  | forkWithoutAncestor
  /-- "old and new local chains must have a common ancestor" -/
  | reorgWithoutAncestor
  /-- "The tip is within the `k` of its era." -/
  | tipOutsideK
  /-- "Local chain tip height must be >= LIB height." -/
  | tipBelowLib
  /-- `self.branches[id]` of a tip or of the LIB that is not in the map. -/
  | noSuchBlock
  deriving DecidableEq, Repr

/-- How a call can fail: with an error, or with a panic. -/
inductive Failure (Id : Type) where
  | error (e : Error Id)
  | panic (p : Panic)
  deriving DecidableEq, Repr

/-- The block tree. -/
structure Branches (Id : Type) where
  branches : Map Id (Branch Id)
  tips : Finset Id
  lib : Id

/-- An order in which the set of the tips is gone through. -/
structure TipOrder (Id : Type) where
  enumerate : Finset Id → List Id
  nodup : ∀ s, (enumerate s).Nodup
  mem : ∀ s i, i ∈ enumerate s ↔ i ∈ s

/-- The tips in ascending order of their ids. -/
def TipOrder.ascending : TipOrder Nat where
  enumerate s := (List.range (s.sup id + 1)).filter (· ∈ s)
  nodup _ := List.nodup_range.filter _
  mem s i := by
    rw [List.mem_filter, List.mem_range, decide_eq_true_eq]
    grind [Finset.le_sup]

namespace Branches

variable [DecidableEq Id]

/-- The tree with one block. -/
def fromLib (lib libParent : Id) (slot : Nat) (length : Nat) (uncleSlots : List Nat) :
    Branches Id where
  branches := Finmap.insert lib ⟨lib, libParent, slot, length, uncleSlots⟩ ∅
  tips := {lib}
  lib := lib

/-- `b` is stored in the tree under its id. -/
def Has (s : Branches Id) (b : Branch Id) : Prop := s.branches.lookup b.id = some b

instance (s : Branches Id) (b : Branch Id) : Decidable (s.Has b) :=
  inferInstanceAs (Decidable (_ = _))

/-- The block with an id. -/
def get (s : Branches Id) (id : Id) : Option (Branch Id) := s.branches.lookup id

/-- Adds a child of a block of the tree. -/
def applyHeader (s : Branches Id) (header parent : Id) (slot : Nat) (uncleSlots : List Nat) :
    Except (Failure Id) (Branches Id) :=
  match s.branches.lookup parent with
  | none => .error (.error (.parentMissing parent))
  | some p =>
    if slot < p.slot then .error (.error (.invalidSlot parent))
    else if p.length + 1 < 2 ^ 64 then
      .ok {
        s with
        tips := insert header (s.tips.erase parent)
        branches := s.branches.insert header ⟨header, parent, slot, p.length + 1, uncleSlots⟩ }
    else .error (.panic .heightOverflow)

/-- The block of an id the source indexes the map with. -/
def index (s : Branches Id) (id : Id) : Except (Failure Id) (Branch Id) :=
  match s.branches.lookup id with
  | none => .error (.panic .noSuchBlock)
  | some b => .ok b

/-- The blocks of the tips (`branches()`), in an order. -/
def tipBranches (s : Branches Id) (ord : TipOrder Id) : Except (Failure Id) (List (Branch Id)) :=
  (ord.enumerate s.tips).mapM s.index

/-- The parent; the oldest block is its own or has it outside the tree. -/
def parent (s : Branches Id) (b : Branch Id) : Option (Branch Id) :=
  if b.parent = b.id then none else s.branches.lookup b.parent

/-- `while b.length > length { b = parent(b)? }` -/
def level (s : Branches Id) : Nat → Branch Id → Nat → Option (Branch Id)
  | 0, _, _ => none
  | n + 1, b, length =>
    if length < b.length then (s.parent b).bind fun p => s.level n p length else some b

/-- `while b1.id != b2.id { b1 = parent(b1)?; b2 = parent(b2)? }` -/
def meet (s : Branches Id) : Nat → Branch Id → Branch Id → Option (Branch Id)
  | 0, _, _ => none
  | n + 1, b₁, b₂ =>
    if b₁.id = b₂.id then some b₁
    else (s.parent b₁).bind fun p₁ => (s.parent b₂).bind fun p₂ => s.meet n p₁ p₂

/-- Cuts both chains to the same length and walks up together. -/
def lca (s : Branches Id) (b₁ b₂ : Branch Id) : Option (Branch Id) :=
  (s.level (b₁.length + 1) b₁ b₂.length).bind fun b₁ =>
    (s.level (b₂.length + 1) b₂ b₁.length).bind fun b₂ => s.meet (b₁.length + 1) b₁ b₂

/-- Walks back until the slot, or to the oldest block. -/
def walkBackBefore (s : Branches Id) (b : Branch Id) (slot : Nat) : Branch Id :=
  go (b.length + 1) b
where
  go : Nat → Branch Id → Branch Id
    | 0, cur => cur
    | n + 1, cur =>
      if slot < cur.slot then
        match s.parent cur with
        | none => cur
        | some p => go n p
      else cur

/-- The ids from `b` back to `target`, without `target`. -/
def walkBackToBlock (s : Branches Id) (b : Branch Id) (target : Id) : List Id :=
  go (b.length + 1) (some b)
where
  go : Nat → Option (Branch Id) → List Id
    | 0, _ => []
    | _ + 1, none => []
    | n + 1, some b => if b.id = target then [] else b.id :: go n (s.parent b)

/-- From a tip down to the LIB. -/
def tipToLibBlocks (s : Branches Id) (tip : Branch Id) : List (Branch Id) :=
  go (tip.length + 1) tip
where
  go : Nat → Branch Id → List (Branch Id)
    | 0, _ => []
    | n + 1, b =>
      b :: if b.id = s.lib then [] else
        match s.parent b with
        | none => []
        | some p => go n p

/-- From the LIB up to a tip. -/
def libToTipBlocks (s : Branches Id) (tip : Branch Id) : List (Branch Id) :=
  (s.tipToLibBlocks tip).reverse

end Branches

end Logos.Engine
