import LogosChain.Chain.Node

/-!
# The block provider (`services/chain/chain-service/src/sync/block_provider.rs`)

A peer asks for the blocks from one of those it knows to a target. The provider finds both ends,
computes a path of at most a batch between them, and streams the blocks after its first. The storage
does not fail.
-/

namespace Logos.Chain

open Base Mantle Ledger

/-- Why there is no path in the engine. -/
inductive InvalidState where
  /-- "Genesis block reached before reaching start_block" -/
  | genesisReached (startBlock : Hash)
  /-- "Couldn't reach start_block" -/
  | startUnreachable (startBlock : Hash)
deriving DecidableEq, Repr

/-- Why a request fails. -/
inductive GetBlocksError where
  /-- "Block not found in storage for header" -/
  | blockNotFound (id : Hash)
  /-- "Failed to find start block" -/
  | startBlockNotFound
  | invalidState (reason : InvalidState)
deriving DecidableEq, Repr

/-- Where a block was found. -/
inductive BlockLocation where
  | engine
  | storage
deriving DecidableEq, Repr

/-- An end of a path. -/
structure BlockInfo where
  id : Hash
  slot : Nat
  location : BlockLocation
deriving DecidableEq, Repr

/-- The greatest `usize` would panic ("batch_size + 1 must not overflow"). -/
structure BlockProvider where
  storage : Storage
  batchSize : Nat
  batchSize_pos : 0 < batchSize
  batchSize_fits : batchSize + 1 < 2 ^ 64

namespace BlockProvider

variable (p : BlockProvider) (c : Engine.Cryptarchia Hash)

/-- A stored block that is the immutable block of its slot. -/
def loadImmutableBlock (id : Hash) : Option Block :=
  match p.storage.getBlock id with
  | none => none
  | some block =>
    if p.storage.getImmutableBlockId block.header.slot = some id then some block else none

/-- The immutable ones of some blocks. -/
def loadImmutableBlocks (ids : List Hash) : List Block := ids.filterMap p.loadImmutableBlock

/-- The latest immutable one of some blocks. -/
def findMaxSlotImmutableBlock (ids : List Hash) : Option Block :=
  maxByKey (·.header.slot) (p.loadImmutableBlocks ids)

/-- Finds the target in the engine, or else among the immutable blocks. -/
def findTargetBlock (targetBlock : Hash) : Except GetBlocksError BlockInfo :=
  match c.branches.get targetBlock with
  | some targetBranch => .ok ⟨targetBlock, targetBranch.slot, .engine⟩
  | none =>
    match p.loadImmutableBlock targetBlock with
    | some block => .ok ⟨targetBlock, block.header.slot, .storage⟩
    | none => .error (.blockNotFound targetBlock)

omit p in
/-- The longest last common ancestor of the target and a known block of the engine. -/
def maxLca (targetBranch : Engine.Branch Hash) (knownBlocks : List Hash) :
    Option (Engine.Branch Hash) :=
  maxByKey (·.length) (knownBlocks.filterMap fun known =>
    (c.branches.get known).bind fun knownBranch => c.branches.lca knownBranch targetBranch)

omit p in
/-- The longest common ancestor of the target and a known block. -/
def findOptimalStartBlockFromEngine (knownBlocks : List Hash) (targetInfo : BlockInfo) :
    Except GetBlocksError (Option BlockInfo) := do
  let targetBlock ← okOr (c.branches.get targetInfo.id) (.blockNotFound targetInfo.id)
  return (maxLca c targetBlock knownBlocks).map fun lca => ⟨lca.id, lca.slot, .engine⟩

/-- The genesis block is not stored: it is the immutable block of slot 0. -/
def findImmutableGenesisBlock : Except GetBlocksError (Option BlockInfo) := do
  let genesisBlockId ← okOr (p.storage.scanImmutableBlockIds 0 0 1).head? .startBlockNotFound
  return some ⟨genesisBlockId, 0, .storage⟩

variable [HeaderPrimitives]

/-- The latest known immutable block, or else genesis. -/
def findOptimalStartBlockFromStorage (knownBlocks : List Hash) :
    Except GetBlocksError (Option BlockInfo) :=
  match p.findMaxSlotImmutableBlock knownBlocks with
  | some block => .ok (some ⟨block.id, block.header.slot, .storage⟩)
  | none =>
    match p.findImmutableGenesisBlock with
    | .ok (some genesisBlock) =>
      if genesisBlock.id ∉ knownBlocks then .ok none else .ok (some genesisBlock)
    | maybeGenesis => maybeGenesis

/-- In the engine if the target and a known block are. -/
def findOptimalStartBlock (knownBlocks : List Hash) (targetInfo : BlockInfo) :
    Except GetBlocksError BlockInfo := do
  let fromEngine ← match targetInfo.location with
    | .engine => findOptimalStartBlockFromEngine c knownBlocks targetInfo
    | .storage => pure none
  match fromEngine with
  | some startInfo => return startInfo
  | none =>
    let fromStorage ← p.findOptimalStartBlockFromStorage knownBlocks
    okOr fromStorage .startBlockNotFound

omit p [HeaderPrimitives] in
/-- The walk from `current` back to the start, in front of the path so far. -/
def walkToStart (startBlock : Hash) (limit : Nat) :
    Nat → Hash → List Hash → Except GetBlocksError (List Hash)
  | 0, _, _ => .error (.invalidState (.startUnreachable startBlock))
  | fuel + 1, current, path =>
    let path := current :: path
    let path := if limit < path.length then path.dropLast else path
    if current = startBlock then .ok path
    else
      match c.branches.get current with
      | some block =>
        if block.parent = current then .error (.invalidState (.genesisReached startBlock))
        else walkToStart startBlock limit fuel block.parent path
      | none => .error (.invalidState (.startUnreachable startBlock))

omit p [HeaderPrimitives] in
/-- The first `limit` blocks from the start to the target. -/
def computePathFromEngine (startBlock targetBlock : Hash) (limit : Nat) :
    Except GetBlocksError (List Hash) :=
  let length := ((c.branches.get targetBlock).map (·.length)).getD 0
  walkToStart c startBlock limit (length + 2) targetBlock []

omit [HeaderPrimitives] in
/-- The immutable blocks from the start, and the engine's from the LIB. -/
def computePathFromStorageAndEngine (startBlockSlot : Nat) (targetBlock : Hash)
    (targetBlockSlot limit : Nat) : Except GetBlocksError (List Hash) :=
  let storagePath := p.storage.scanImmutableBlockIds startBlockSlot targetBlockSlot limit
  if storagePath.getLast? = some targetBlock then .ok storagePath
  else
    let remainingLimit := limit - storagePath.length
    if remainingLimit = 0 then .ok storagePath
    else do
      let enginePath ← computePathFromEngine c c.lib targetBlock remainingLimit
      return storagePath ++ enginePath

omit [HeaderPrimitives] in
/-- The peer knows the first block, so it is not counted. -/
def computePathBetweenEndpoints (startInfo targetInfo : BlockInfo) :
    Except GetBlocksError (List Hash) :=
  let limit := p.batchSize + 1
  match startInfo.location with
  | .engine => computePathFromEngine c startInfo.id targetInfo.id limit
  | .storage =>
    p.computePathFromStorageAndEngine c startInfo.slot targetInfo.id targetInfo.slot limit

/-- The path from the best known block to the target. -/
def findPath (targetBlock : Hash) (knownBlocks : List Hash) : Except GetBlocksError (List Hash) := do
  let targetInfo ← p.findTargetBlock c targetBlock
  let startInfo ← p.findOptimalStartBlock c knownBlocks targetInfo
  p.computePathBetweenEndpoints c startInfo targetInfo

omit [HeaderPrimitives] in
/-- The blocks after the known one, up to one that is not stored. -/
def streamBlocksFromPath (path : List Hash) : List Hash :=
  (path.drop 1).takeWhile fun id => (p.storage.getBlock id).isSome

/-- The blocks that are sent: those of the path after its first. -/
def blockStream (targetBlock : Hash) (knownBlocks : List Hash) :
    Except GetBlocksError (List Hash) := do
  let path ← p.findPath c targetBlock knownBlocks
  return p.streamBlocksFromPath path

end BlockProvider

end Logos.Chain
