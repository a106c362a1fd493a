import LogosChain.Engine.Branches

/-!
# The consensus engine (`consensus/cryptarchia-engine/src/lib.rs`, `Cryptarchia`)

`receiveBlock` adds a block, runs the fork choice and moves the LIB; then the forks that left the
local chain below it and the blocks under it are removed. While the engine bootstraps, the fork
choice is `maxvalidBg` (the density rule of Ouroboros Genesis) and the LIB stays; online it is
`maxvalidMc` (longest chain, forks of at most `k` blocks) and the LIB is the oldest block of the
local chain within the `k` of its own era.
-/

namespace Logos.Engine

open Base

variable {Id : Type}

/-- The parameters of an era; the source computes two of them in floating point. -/
structure Config where
  securityParam : Nat
  sGen : Nat
  uncleReferenceWindowInSlot : Nat
  maxUncles : Nat
  securityParam_pos : 0 < securityParam
  sGen_pos : 0 < sGen

/-- Whether the engine bootstraps or is online. -/
inductive State where
  | bootstrapping
  | online
  deriving DecidableEq, Repr

/-- The engine: the tree, the local tip and the parameters. -/
structure Cryptarchia (Id : Type) where
  localChain : Branch Id
  branches : Branches Id
  eraSchedule : EraSchedule Config
  state : State

/-- The blocks that left the tree: the stale ones, and those under the LIB. -/
structure PrunedBlocks (Id : Type) where
  staleBlocks : Finset Id
  immutableBlocks : Map Nat Id

def PrunedBlocks.new : PrunedBlocks Id := ⟨∅, ∅⟩

/-- `all()`: the stale blocks, then the immutable ones. -/
def PrunedBlocks.all (p : PrunedBlocks Id) : Multiset Id :=
  p.staleBlocks.val + p.immutableBlocks.entries.map fun e => e.2

/-- What a received block changed. -/
structure ReceiveBlockOutcome (Id : Type) where
  prunedBlocks : PrunedBlocks Id
  reorgedBlocks : List Id
  newlyCanonicalBlocks : List Id

/-- A fork and the block where it left the local chain. -/
structure ForkDivergenceInfo (Id : Type) where
  tip : Branch Id
  lca : Branch Id

/-- A panic in place of a missing value (`expect`). -/
def expect {α : Type} (o : Option α) (p : Panic) : Except (Failure Id) α :=
  match o with
  | none => .error (.panic p)
  | some a => .ok a

namespace Branches

variable [DecidableEq Id]

/-- One candidate of `maxvalid_bg`. The sum of the slots wraps. -/
def bgStep (s : Branches Id) (paramsAt : Nat → Nat × Nat) (cmax chain : Branch Id) :
    Except (Failure Id) (Branch Id) := do
  let lca ← expect (s.lca cmax chain) .forkWithoutAncestor
  let (k, sGen) := paramsAt lca.slot
  let m := cmax.length - lca.length
  if m ≤ k then
    pure (if cmax.length < chain.length then chain else cmax)
  else
    let densitySlot := (lca.slot + sGen) % 2 ^ 64
    let cmaxDensity := (s.walkBackBefore cmax densitySlot).length
    let candidateDensity := (s.walkBackBefore chain densitySlot).length
    pure (if cmaxDensity < candidateDensity then chain else cmax)

/-- The fork choice of Ouroboros Genesis (`maxvalid_bg`). -/
def maxvalidBg (s : Branches Id) (ord : TipOrder Id) (localChain : Branch Id)
    (paramsAt : Nat → Nat × Nat) : Except (Failure Id) (Branch Id) := do
  let forks ← s.tipBranches ord
  forks.foldlM (s.bgStep paramsAt) localChain

/-- One step of `maxvalid_mc`: the longer chain, unless it forks too deep. -/
def mcStep (s : Branches Id) (securityParamAtSlot : Nat → Nat) (cmax chain : Branch Id) :
    Except (Failure Id) (Branch Id) := do
  let lca ← expect (s.lca cmax chain) .forkWithoutAncestor
  let k := securityParamAtSlot lca.slot
  let m := cmax.length - lca.length
  pure (if m ≤ k ∧ cmax.length < chain.length then chain else cmax)

/-- The fork choice of Ouroboros Praos (`maxvalid_mc`). -/
def maxvalidMc (s : Branches Id) (ord : TipOrder Id) (localChain : Branch Id)
    (securityParamAtSlot : Nat → Nat) : Except (Failure Id) (Branch Id) := do
  let forks ← s.tipBranches ord
  forks.foldlM (s.mcStep securityParamAtSlot) localChain

end Branches

namespace Cryptarchia

variable [DecidableEq Id]

/-- `security_param` of the era of a slot. -/
def kAt (c : Cryptarchia Id) (slot : Nat) : Nat := (c.eraSchedule.atSlot slot).parameters.securityParam

/-- The two parameters of `maxvalid_bg`. -/
def bgParamsAt (c : Cryptarchia Id) (slot : Nat) : Nat × Nat :=
  ((c.eraSchedule.atSlot slot).parameters.securityParam,
    (c.eraSchedule.atSlot slot).parameters.sGen)

/-- `fork_choice`: the tip to follow. -/
def forkChoice (c : Cryptarchia Id) (ord : TipOrder Id) : Except (Failure Id) (Branch Id) :=
  match c.state with
  | .bootstrapping => c.branches.maxvalidBg ord c.localChain c.bgParamsAt
  | .online => c.branches.maxvalidMc ord c.localChain c.kAt

/-- The block is within the `k` of its era below the tip. -/
def isBlockWithinK (c : Cryptarchia Id) (b : Branch Id) : Bool :=
  c.localChain.length - b.length ≤ c.kAt b.slot

/-- `State::lib`: the LIB that the state asks for. -/
def stateLib (c : Cryptarchia Id) : Except (Failure Id) Id :=
  match c.state with
  | .bootstrapping => .ok c.branches.lib
  | .online => do
    let b ← expect ((c.branches.libToTipBlocks c.localChain).find? c.isBlockWithinK) .tipOutsideK
    pure b.id

def tip (c : Cryptarchia Id) : Id := c.localChain.id

def lib (c : Cryptarchia Id) : Id := c.branches.lib

def libBranch (c : Cryptarchia Id) : Except (Failure Id) (Branch Id) := c.branches.index c.lib

/-- How many blocks the tip is above the LIB. -/
def libDepth (c : Cryptarchia Id) : Except (Failure Id) Nat := do
  let l ← c.libBranch
  if l.length ≤ c.localChain.length then pure (c.localChain.length - l.length)
  else .error (.panic .tipBelowLib)

/-- The tips but the local one. -/
def nonCanonicalForks (c : Cryptarchia Id) (ord : TipOrder Id) :
    Except (Failure Id) (List (Branch Id)) := do
  let forks ← c.branches.tipBranches ord
  pure (forks.filter fun fork => fork.id ≠ c.tip)

/-- A fork with the block where it left the local chain. -/
def forkDivergence (c : Cryptarchia Id) (fork : Branch Id) :
    Except (Failure Id) (ForkDivergenceInfo Id) := do
  let lca ← expect (c.branches.lca c.localChain fork) .forkWithoutAncestor
  pure ⟨fork, lca⟩

/-- The forks off the local chain below `maxDivDepth` from the tip. -/
def prunableForks (c : Cryptarchia Id) (ord : TipOrder Id) (maxDivDepth : Nat) :
    Except (Failure Id) (List (ForkDivergenceInfo Id)) :=
  if maxDivDepth ≤ c.localChain.length then do
    let deepestDivBlock := c.localChain.length - maxDivDepth
    let forks ← c.nonCanonicalForks ord
    let infos ← forks.mapM c.forkDivergence
    pure (infos.filter fun info => info.lca.length < deepestDivBlock)
  else pure []

/-- Removes the blocks from `cur` down to `stop`. -/
def removeFork (stop : Id) : Nat → Map Id (Branch Id) → Id → Map Id (Branch Id) × List Id
  | 0, m, _ => (m, [])
  | n + 1, m, cur =>
    if cur = stop then (m, [])
    else
      match m.lookup cur with
      | none => (m, [])
      | some b =>
        let r := removeFork stop n (m.erase cur) b.parent
        (r.1, b.id :: r.2)

/-- Removes a fork down to the chain it left. -/
def pruneFork (s : Branches Id) (info : ForkDivergenceInfo Id) : Branches Id × List Id :=
  let r := removeFork info.lca.id (info.tip.length + 1) s.branches info.tip.id
  ({ s with tips := s.tips.erase info.tip.id, branches := r.1 }, r.2)

/-- Removes forks one after the other. -/
def pruneForks (s : Branches Id) : List (ForkDivergenceInfo Id) → Branches Id × List Id
  | [] => (s, [])
  | info :: infos =>
    let r := pruneFork s info
    let r' := pruneForks r.1 infos
    (r'.1, r.2 ++ r'.2)

/-- `prune_stale_forks`: the new tree and the removed ids. -/
def pruneStaleForks (c : Cryptarchia Id) (ord : TipOrder Id) (maxDivDepth : Nat) :
    Except (Failure Id) (Cryptarchia Id × List Id) := do
  let forks ← c.prunableForks ord maxDivDepth
  let r := pruneForks c.branches forks
  pure ({ c with branches := r.1 }, r.2)

/-- Removes the blocks from `block` on, down to the oldest. -/
def removeAncestors : Nat → Map Id (Branch Id) → Id → Map Id (Branch Id) × List (Nat × Id)
  | 0, m, _ => (m, [])
  | n + 1, m, block =>
    match m.lookup block with
    | none => (m, [])
    | some b =>
      let r := removeAncestors n (m.erase block) b.parent
      (r.1, (b.slot, b.id) :: r.2)

/-- `prune_immutable_blocks`: removes the blocks under the LIB. -/
def pruneImmutableBlocks (c : Cryptarchia Id) :
    Except (Failure Id) (Cryptarchia Id × List (Nat × Id)) := do
  let l ← c.libBranch
  let r := removeAncestors (l.length + 1) c.branches.branches l.parent
  pure ({ c with branches := { c.branches with branches := r.1 } }, r.2)

/-- A `BTreeMap` by slot: a later block replaces an earlier one. -/
def collectBySlot (l : List (Nat × Id)) : Map Nat Id :=
  l.foldl (fun m e => m.insert e.1 e.2) ∅

/-- The engine with another LIB, before any block is pruned. -/
def withLib (c : Cryptarchia Id) (lib : Id) : Cryptarchia Id :=
  { c with branches := { c.branches with lib := lib } }

/-- `update_lib`: moves the LIB and prunes the tree. -/
def updateLib (c : Cryptarchia Id) (ord : TipOrder Id) :
    Except (Failure Id) (Cryptarchia Id × PrunedBlocks Id) := do
  let newLib ← c.stateLib
  if c.branches.lib = newLib then pure (c, .new)
  else
    let c := c.withLib newLib
    let depth ← c.libDepth
    let (c, stale) ← c.pruneStaleForks ord depth
    let (c, immutable) ← c.pruneImmutableBlocks
    pure (c, ⟨stale.toFinset, collectBySlot immutable⟩)

/-- The blocks that left the local chain, and the blocks adopted. -/
def canonicalChange (c : Cryptarchia Id) (old : Branch Id) :
    Except (Failure Id) (List Id × List Id) :=
  if c.localChain.id = old.id then pure ([], [])
  else do
    let lca ← expect (c.branches.lca old c.localChain) .reorgWithoutAncestor
    pure (c.branches.walkBackToBlock old lca.id,
      (c.branches.walkBackToBlock c.localChain lca.id).reverse)

/-- The tree with the block, and the fork choice on it. -/
def adopt (c : Cryptarchia Id) (ord : TipOrder Id) (id parent : Id) (slot : Nat)
    (uncleSlots : List Nat) : Except (Failure Id) (Cryptarchia Id) := do
  let branches ← c.branches.applyHeader id parent slot uncleSlots
  let c := { c with branches := branches }
  let localChain ← c.forkChoice ord
  pure { c with localChain := localChain }

/-- `receive_block_with_canonical_change` -/
def receiveBlock (c : Cryptarchia Id) (ord : TipOrder Id) (id parent : Id) (slot : Nat)
    (uncleSlots : List Nat) : Except (Failure Id) (Cryptarchia Id × ReceiveBlockOutcome Id) := do
  let c' ← c.adopt ord id parent slot uncleSlots
  let (reorged, newlyCanonical) ← c'.canonicalChange c.localChain
  let (c'', pruned) ← c'.updateLib ord
  pure (c'', ⟨pruned, reorged, newlyCanonical⟩)

/-- `online`: the switch to the online state. -/
def online (c : Cryptarchia Id) (ord : TipOrder Id) :
    Except (Failure Id) (Cryptarchia Id × PrunedBlocks Id) :=
  updateLib { c with state := .online } ord

/-- The engine with one block. -/
def fromLib (id parent : Id) (eraSchedule : EraSchedule Config) (state : State) (slot : Nat)
    (length : Nat) (uncleSlots : List Nat) : Cryptarchia Id where
  branches := Branches.fromLib id parent slot length uncleSlots
  localChain := ⟨id, parent, slot, length, uncleSlots⟩
  eraSchedule := eraSchedule
  state := state

/-- The engine at genesis, which is its own parent. -/
def fromGenesis (genesis : Id) (eraSchedule : EraSchedule Config) (state : State) :
    Cryptarchia Id :=
  fromLib genesis genesis eraSchedule state 0 0 []

end Cryptarchia

end Logos.Engine
