import LogosChain.Ledger.Block

/-!
# The chain service (`services/chain/chain-service/src/{lib,uncle}.rs`)

A block is prepared on the ledger, then given to the engine, and only then is its ledger state kept.
The caller removes the states of the pruned blocks. A call returns with what is left of the service,
also when it fails.
-/

namespace Logos.Chain

open Base Mantle Ledger

/-- `Header`. -/
structure BlockHeader where
  slot : Nat
  parentBlock : Hash
  bodyRoot : Hash
  proofOfLeadership : LeaderProof
deriving DecidableEq, Repr

/-- A header with the signature of its leader. -/
structure SignedHeader where
  header : BlockHeader
  signature : Ed25519Signature
deriving DecidableEq, Repr

/-- A block, with the headers of its uncles. -/
structure Block where
  header : BlockHeader
  uncleHeaders : List SignedHeader
  transactions : List SignedOps
deriving DecidableEq

/-- The hash of a header and the signature over its encoding. -/
class HeaderPrimitives where
  /-- `Header::id`. -/
  headerId : BlockHeader → Hash
  verifyHeaderSignature : Ed25519PublicKey → BlockHeader → Ed25519Signature → Bool

/-- The root of the body is the id, and every signature passes. -/
@[reducible]
def HeaderPrimitives.plain : HeaderPrimitives where
  headerId h := h.bodyRoot
  verifyHeaderSignature _ _ _ := true

/-- The id of a block is the hash of its header. -/
def BlockHeader.id [HeaderPrimitives] (h : BlockHeader) : Hash := HeaderPrimitives.headerId h

def Block.id [HeaderPrimitives] (b : Block) : Hash := b.header.id

def Block.uncleSlots (b : Block) : List Nat := b.uncleHeaders.map (·.header.slot)

def Block.ledgerHeader (b : Block) : Header :=
  ⟨b.header.slot, b.header.proofOfLeadership, b.uncleSlots⟩

/-- Where a block being applied comes from. -/
inductive BlockOrigin where
  | network
  | storage
deriving DecidableEq, Repr

/-- Why an uncle makes its block invalid. -/
inductive UncleError where
  | notStrictlyOlder
  | otherEra
  | parentNotOnChain
  | onChain
  /-- The header is at the slot of genesis. -/
  | invalidHeader
  | invalidSignature
  | invalidProof
deriving DecidableEq, Repr

/-- `SignedHeader::verify`. -/
def SignedHeader.verify [HeaderPrimitives] (u : SignedHeader) : Except UncleError Unit := do
  failIf (u.header.slot = 0) .invalidHeader
  failIf (!HeaderPrimitives.verifyHeaderSignature u.header.proofOfLeadership.leaderKey u.header
    u.signature) .invalidSignature

/-- Where the service stands. -/
structure CryptarchiaInfo where
  lib : Hash
  libSlot : Nat
  tip : Hash
  slot : Nat
  height : Nat
  state : Engine.State
deriving DecidableEq, Repr

/-- Why a block is refused. -/
inductive Error where
  | parentMissing (parent : Hash) (info : CryptarchiaInfo)
  | futureBlock (blockSlot currentSlot : Nat)
  | alreadyApplied (id : Hash)
  | ledger (e : LedgerError)
  | consensus (e : Engine.Error Hash)
  | invalidUncle (uncle : Hash) (reason : UncleError)
  | tooManyUncles (count max : Nat)
  | batchDeferredProofVerification (e : BatchError)
deriving DecidableEq, Repr

/-- The panics of the service, of its ledger and of its engine. -/
inductive Panic where
  | ledger (p : Mantle.Panic)
  | engine (p : Engine.Panic)
  /-- "ledger state of a block on the chain must exist" -/
  | uncleParentState
  /-- "no state for tip" -/
  | tipState
deriving DecidableEq, Repr

/-- An error or a panic. -/
inductive Failure where
  | error (e : Error)
  | panic (p : Panic)
deriving DecidableEq, Repr

/-- A call of the ledger. -/
def ofLedger {α : Type} (x : Result LedgerError α) : Except Failure α :=
  x.mapError fun
    | .error e => .error (.ledger e)
    | .panic p => .panic (.ledger p)

/-- A call of the engine. -/
def ofEngine {α : Type} (x : Except (Engine.Failure Hash) α) : Except Failure α :=
  x.mapError fun
    | .error e => .error (.consensus e)
    | .panic p => .panic (.engine p)

/-- The ledger states and the block tree. -/
structure Cryptarchia where
  ledger : Logos.Ledger
  consensus : Engine.Cryptarchia Hash
  genesisId : Hash

/-- What a block changed in the tree, and its events. -/
structure TryApplyBlockOutcome where
  prunedBlocks : Engine.PrunedBlocks Hash
  reorgedBlocks : List Hash
  newlyCanonicalBlocks : List Hash
  events : List Event

namespace Cryptarchia

/-- The service with one block. -/
def fromLib (libId libParent : Hash) (libLedgerState : LedgerState) (genesisId : Hash)
    (eraSchedule : EraScheduledConfig) (state : Engine.State) (libSlot libLength : Nat)
    (libUncleSlots : List Nat) : Cryptarchia where
  consensus := .fromLib libId libParent (engineSchedule eraSchedule) state libSlot libLength
    libUncleSlots
  ledger := .new libId libLedgerState eraSchedule
  genesisId := genesisId

def fromGenesis (genesisId : Hash) (genesisLedgerState : LedgerState)
    (eraSchedule : EraScheduledConfig) (state : Engine.State) : Cryptarchia :=
  fromLib genesisId genesisId genesisLedgerState genesisId eraSchedule state 0 0 []

def info (c : Cryptarchia) : Except Failure CryptarchiaInfo := do
  let lib ← ofEngine c.consensus.libBranch
  let tip := c.consensus.localChain
  return ⟨lib.id, lib.slot, tip.id, tip.slot, tip.length, c.consensus.state⟩

/-- Fails for a missing parent. -/
def parentMissing {α : Type} (c : Cryptarchia) (parent : Hash) : Except Failure α := do
  let info ← c.info
  throw (.error (.parentMissing parent info))

section

variable [HeaderPrimitives]

/-- At most as many uncles as the era of the block allows. -/
def verifyUncleCount (c : Cryptarchia) (block : Block) : Except Failure Unit :=
  let maxUncles := (configForSlot c.ledger.eraSchedule block.header.slot).consensusConfig.maxUncles
  failIf (maxUncles < block.uncleHeaders.length)
    (.error (.tooManyUncles block.uncleHeaders.length maxUncles))

omit [HeaderPrimitives] in
/-- Walks back through the window for the parents of uncles. -/
def walkBackForUncles (s : Engine.Branches Hash) (uncles uncleParents : List Hash)
    (windowStart : Nat) : Nat → Engine.Branch Hash → List Hash → Except Hash (List Hash)
  | 0, _, found => .ok found
  | n + 1, block, found =>
    if block.slot < windowStart then .ok found
    else if block.id ∈ uncles then .error block.id
    else
      let found := if block.id ∈ uncleParents then block.id :: found else found
      if block.parent = block.id then .ok found
      else
        match s.get block.parent with
        | none => .ok found
        | some parent => walkBackForUncles s uncles uncleParents windowStart n parent found

/-- No uncle is on the chain, and the parent of each is, within the window. -/
def verifyUnclesAncestry (c : Cryptarchia) (uncles : List SignedHeader)
    (parent : Engine.Branch Hash) (windowStart : Nat) : Except Failure Unit := do
  let found ← (walkBackForUncles c.consensus.branches (uncles.map (·.header.id))
      (uncles.map (·.header.parentBlock)) windowStart (parent.length + 1) parent []).mapError
    fun uncle => .error (.invalidUncle uncle .onChain)
  uncles.forM fun uncle => failIf (uncle.header.parentBlock ∉ found)
    (.error (.invalidUncle uncle.header.id .parentNotOnChain))

variable [Primitives]

omit [HeaderPrimitives] in
/-- An uncle's proof of leadership, against the state of its parent. -/
def verifyUnclePol (c : Cryptarchia) (uncle : SignedHeader) :
    Except Failure (Except UncleError Unit) := do
  let parentState ← okOr (c.ledger.state uncle.header.parentBlock) (.panic .uncleParentState)
  match parentState.verifyProofOfLeadership uncle.header.slot uncle.header.proofOfLeadership
    c.ledger.eraSchedule with
  | .ok () => return .ok ()
  | .error (.error _) => return .error .invalidProof
  | .error (.panic p) => throw (.panic (.ledger p))

/-- The header of an uncle, its signature and its proof of leadership. -/
def verifyUncle (c : Cryptarchia) (uncle : SignedHeader) : Except Failure Unit := do
  let invalid := fun reason => Failure.error (.invalidUncle uncle.header.id reason)
  uncle.verify.mapError invalid
  let r ← c.verifyUnclePol uncle
  r.mapError invalid

/-- Every uncle of a block against the chain that the block extends. -/
def verifyUncles (c : Cryptarchia) (block : Block) : Except Failure Unit :=
  if block.uncleHeaders.isEmpty then .ok ()
  else
    match c.consensus.branches.get block.header.parentBlock with
    | none => c.parentMissing block.header.parentBlock
    | some parent => do
      let slot := block.header.slot
      let era := c.ledger.eraSchedule.atSlot slot
      block.uncleHeaders.forM fun uncle => do
        failIf (slot ≤ uncle.header.slot)
          (.error (.invalidUncle uncle.header.id .notStrictlyOlder))
        failIf (uncle.header.slot < era.firstSlot)
          (.error (.invalidUncle uncle.header.id .otherEra))
      let windowStart := slot - era.parameters.consensusConfig.uncleReferenceWindowInSlot
      c.verifyUnclesAncestry block.uncleHeaders parent windowStart
      block.uncleHeaders.forM c.verifyUncle

/-- A block from elsewhere is not from the future, and its uncles are valid. -/
def verifyOrigin (c : Cryptarchia) (block : Block) (currentSlot : Nat) :
    BlockOrigin → Except Failure Unit
  | .network => do
    failIf (currentSlot < block.header.slot) (.error (.futureBlock block.header.slot currentSlot))
    c.verifyUncles block
  | .storage => .ok ()

/-- A block on the ledger. -/
def prepareUpdate (c : Cryptarchia) (block : Block) : Except Failure PreparedUpdate :=
  match c.ledger.prepareUpdate block.id block.header.parentBlock block.ledgerHeader
    block.transactions with
  | .ok update => .ok update
  | .error (.error (.parentNotFound parent)) => c.parentMissing parent
  | .error (.error e) => .error (.error (.ledger e))
  | .error (.panic p) => .error (.panic (.ledger p))

/-- A block on the ledger, with its uncles and its proofs checked. -/
def prepareBlock (c : Cryptarchia) (block : Block) (currentSlot : Nat) (origin : BlockOrigin) :
    Except Failure PreparedUpdate := do
  failIf (c.ledger.state block.id).isSome (.error (.alreadyApplied block.id))
  c.verifyUncleCount block
  c.verifyOrigin block currentSlot origin
  let update ← c.prepareUpdate block
  update.deferredProofs.verify.mapError fun e => .error (.batchDeferredProofVerification e)
  return update

/-- Applies a block; the caller removes the states of pruned blocks. -/
def tryApplyBlockWithStateRetention (c : Cryptarchia) (ord : Engine.TipOrder Hash) (block : Block)
    (currentSlot : Nat) (origin : BlockOrigin) : Except Failure TryApplyBlockOutcome × Cryptarchia :=
  match c.prepareBlock block currentSlot origin with
  | .error f => (.error f, c)
  | .ok update =>
    match c.consensus.receiveBlock ord block.id block.header.parentBlock block.header.slot
      block.uncleSlots with
    | .error (.error (.parentMissing parent)) => (c.parentMissing parent, c)
    | .error (.error e) => (.error (.error (.consensus e)), c)
    | .error (.panic p) => (.error (.panic (.engine p)), c)
    | .ok (consensus, outcome) =>
      (.ok ⟨outcome.prunedBlocks, outcome.reorgedBlocks, outcome.newlyCanonicalBlocks,
        update.events⟩, { c with consensus := consensus, ledger := c.ledger.commitUpdate update })

end

/-- Forgets the ledger states of blocks. -/
def pruneLedgerStates (c : Cryptarchia) (blocks : List Hash) : Cryptarchia :=
  { c with ledger := blocks.foldl Ledger.pruneStateAt c.ledger }

/-- Switches the engine online; the caller prunes the states. -/
def toOnline (c : Cryptarchia) (ord : Engine.TipOrder Hash) :
    Except Failure (Cryptarchia × Engine.PrunedBlocks Hash) := do
  let (consensus, pruned) ← ofEngine (c.consensus.online ord)
  return ({ c with consensus := consensus }, pruned)

/-- The state of the epoch of a slot, as the tip sees it. -/
def epochStateForSlot (c : Cryptarchia) (slot : Nat) : Except Failure EpochState := do
  let state ← okOr (c.ledger.state c.consensus.tip) (.panic .tipState)
  ofLedger (state.epochStateForSlot slot c.ledger.eraSchedule)

end Cryptarchia

end Logos.Chain
