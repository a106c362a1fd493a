import LogosChain.Chain.Node

/-!
# Saving and recovering the service (`services/chain/chain-service/src/{lib,states,bootstrap/state}.rs`)

The service saves its LIB with its ledger state, and the id of its tip. When it starts again it
processes the blocks between the two from the storage. What the start does not read of the saved
state is left out.
-/

namespace Logos

/-- Adds what another step has pruned; the newer block of a slot stays. -/
def Engine.PrunedBlocks.extend {Id : Type} [DecidableEq Id] (p other : Engine.PrunedBlocks Id) :
    Engine.PrunedBlocks Id :=
  ⟨p.staleBlocks ∪ other.staleBlocks, other.immutableBlocks ∪ p.immutableBlocks⟩

namespace Chain

open Base Mantle Ledger

/-- Why the service cannot start again. -/
inductive RecoveryError where
  /-- "Ledger state associated with LIB not found, something is corrupted" -/
  | libStateMissing
  | parentIdNotFound (id : Hash)
  | headerIdNotFound (id : Hash)
  /-- The engine fails, or a block cannot be replayed. -/
  | failure (f : Failure)
  /-- The parents in the storage lead in a circle, and the walk back does not end. -/
  | endless
deriving DecidableEq, Repr

/-- The mode of the engine when it was saved. -/
structure LastEngineState where
  timestamp : Nat
  state : Engine.State
deriving DecidableEq, Repr

/-- What is saved. -/
structure CryptarchiaConsensusState where
  tip : Hash
  lib : Hash
  libLedgerState : LedgerState
  libBlockLength : Nat
  libBlockSlot : Nat
  libBlockUncleSlots : List Nat
  genesisId : Hash
  lastEngineState : Option LastEngineState

/-- The state to save (`from_cryptarchia_and_unpruned_blocks`). -/
def CryptarchiaConsensusState.fromCryptarchia (c : Cryptarchia) (now : Nat) :
    Except RecoveryError CryptarchiaConsensusState := do
  let lib ← (ofEngine c.consensus.libBranch).mapError .failure
  let libLedgerState ← okOr (c.ledger.state lib.id) .libStateMissing
  return {
    tip := c.consensus.tip
    lib := lib.id
    libLedgerState := libLedgerState
    libBlockLength := lib.length
    libBlockSlot := lib.slot
    libBlockUncleSlots := lib.uncleSlots
    genesisId := c.genesisId
    lastEngineState := some ⟨now, c.consensus.state⟩ }

/-- When a node that starts bootstraps. -/
structure BootstrapConfig where
  forceBootstrap : Bool
  gracePeriod : Nat
deriving DecidableEq, Repr

/-- Bootstraps after too long offline, or if the clock went back. -/
def checkOfflineGracePeriod (last : LastEngineState) (config : BootstrapConfig) (now : Nat) :
    Engine.State :=
  if last.timestamp ≤ now then
    if config.gracePeriod < now - last.timestamp then .bootstrapping else last.state
  else .bootstrapping

/-- The mode that a node starts in. -/
def chooseEngineState (libId genesisId : Hash) (config : BootstrapConfig)
    (lastEngineState : Option LastEngineState) (now : Nat) : Engine.State :=
  if libId = genesisId ∨ config.forceBootstrap then .bootstrapping
  else
    match lastEngineState with
    | some last => checkOfflineGracePeriod last config now
    | none => .online

/-- The ids from a block back to one of its ancestors, with both. -/
def Storage.loadBlockIds (s : Storage) (toAncestor : Hash) :
    Nat → Hash → Except RecoveryError (List Hash)
  | 0, _ => .error .endless
  | fuel + 1, current =>
    if current = toAncestor then .ok [current]
    else do
      let parent ← okOr (s.getBlockParent current) (.parentIdNotFound current)
      -- genesis is reached before the ancestor
      failIf (parent = current) (.parentIdNotFound current)
      let ids ← s.loadBlockIds toAncestor fuel parent
      return current :: ids

/-- The blocks after the LIB. The stored parents bound the walk. -/
def Storage.loadRecoveryBlocks (s : Storage) (tip lib : Hash) : Except RecoveryError (List Block) := do
  let ids ← s.loadBlockIds lib (s.parents.keys.card + 1) tip
  (ids.reverse.drop 1).mapM fun id => okOr (s.getBlock id) (.headerIdNotFound id)

/-- The blocks to replay, and whether some were missing. -/
structure RecoveryBlocks where
  blocks : List Block
  fellBackToLib : Bool

/-- The blocks to replay, or none if one of them is missing. -/
def Storage.loadRecoveryBlocksOrFallBackToLib (s : Storage) (tip lib : Hash) :
    Except RecoveryError RecoveryBlocks :=
  if tip = lib then .ok ⟨[], false⟩
  else
    match s.loadRecoveryBlocks tip lib with
    | .ok blocks => .ok ⟨blocks, false⟩
    | .error (.parentIdNotFound _) | .error (.headerIdNotFound _) => .ok ⟨[], true⟩
    | .error e => .error e

/-- The service with the LIB alone. -/
def cryptarchiaFromRecoveredLib (recovery : CryptarchiaConsensusState) (eras : EraScheduledConfig)
    (state : Engine.State) (s : Storage) : Except RecoveryError Cryptarchia :=
  if recovery.lib = recovery.genesisId then
    .ok (.fromGenesis recovery.genesisId recovery.libLedgerState eras state)
  else do
    let libParent ← okOr (s.getBlockParent recovery.lib) (.parentIdNotFound recovery.lib)
    return .fromLib recovery.lib libParent recovery.libLedgerState recovery.genesisId eras state
      recovery.libBlockSlot recovery.libBlockLength recovery.libBlockUncleSlots

/-- The service after the replay. -/
structure InitializedCryptarchia where
  node : Node
  prunedBlocks : Engine.PrunedBlocks Hash
  fellBackToLib : Bool

variable [HeaderPrimitives] [Primitives]

/-- Processes a block from the storage. -/
def replayBlock (orders : Orders) (currentSlot : Nat) (r : Node × Engine.PrunedBlocks Hash)
    (block : Block) : Except RecoveryError (Node × Engine.PrunedBlocks Hash) :=
  match r.1.processBlock orders block currentSlot .storage with
  | (.ok outcome, n) => .ok (n, r.2.extend outcome.prunedBlocks)
  | (.error f, _) => .error (.failure f)

/-- Starts from the saved LIB and replays the blocks. -/
def initializeCryptarchia (orders : Orders) (recovery : CryptarchiaConsensusState)
    (config : BootstrapConfig) (eras : EraScheduledConfig) (s : Storage) (currentSlot now : Nat) :
    Except RecoveryError InitializedCryptarchia := do
  let state := chooseEngineState recovery.lib recovery.genesisId config recovery.lastEngineState now
  let c ← cryptarchiaFromRecoveredLib recovery eras state s
  let recovered ← s.loadRecoveryBlocksOrFallBackToLib recovery.tip recovery.lib
  let (n, pruned) ← recovered.blocks.foldlM (replayBlock orders currentSlot) (⟨c, s⟩, .new)
  return ⟨n, pruned, recovered.fellBackToLib⟩

omit [HeaderPrimitives] [Primitives] in
/-- The engine starts in the saved state, or it bootstraps. -/
theorem chooseEngineState_cases (libId genesisId : Hash) (config : BootstrapConfig)
    (last : LastEngineState) (now : Nat) :
    chooseEngineState libId genesisId config (some last) now = .bootstrapping ∨
      chooseEngineState libId genesisId config (some last) now = last.state := by
  grind [chooseEngineState, checkOfflineGracePeriod]

end Chain

end Logos
