import LogosChain.Ledger.Leader
import LogosChain.Ledger.Pow
import LogosChain.Ledger.Sdp

/-!
# The ledger of consensus (`ledger/src/cryptarchia/mod.rs`)

A header moves the state to its slot (`updateEpochState`): the state of the next epoch follows the
ledger until its snapshots and then becomes the state of the epoch; after a jump over epochs that is
taken from the ledger.
-/

namespace Logos.Ledger

open Base Mantle

/-- Why an operation or a header is refused. -/
inductive MantleError where
  | channel (e : ChannelError)
  | leader (e : LeaderError)
  | sdp (e : SdpLedgerError)
  | transfer (e : TransferError)
  | leaderClaim (e : LeaderClaimError)
  | claimPow (e : ClaimPowRewardError)
  | powRewardPool (e : PowRewardPoolOverflow)
deriving DecidableEq, Repr

/-- Why a block is refused. -/
inductive LedgerError where
  | invalidSlot (parent block : Nat)
  | parentNotFound (id : Hash)
  | invalidProof
  | insufficientBalance
  | balanceOverflow
  | gasOverflow
  | mantle (e : MantleError)
  | inputInGenesis (noteId : NoteId)
  | tooMuchTransactionExecutionGas (gas limit : Nat)
  | tooMuchExecutionGas (gas limit : Nat)
  | tooManyTransactions (max : Nat)
  | transactionsTooLarge (size max : Nat)
  | opDataTooLarge (size max : Nat)
  | verificationError (e : VerificationError)
  | unacceptedForkDigest (forkDigest : ForkDigest)
deriving DecidableEq, Repr

/-- How many blocks' fees count for the rewards of a block. -/
def windowSize : Nat := 120

/-- The ledger of consensus after a block. -/
structure CryptarchiaLedger where
  utxos : Utxos
  nonce : Fr
  previousEpochNonce : Fr
  slot : Nat
  nextEpochState : EpochState
  epochState : EpochState
  blockDensity : BlockDensity
  feeWindow : Vector Nat windowSize
  averageExecutionGas : Nat
  executionBaseFee : Nat
  storageGasEma : Nat
  storageGasPrice : Nat
  storageGasConsumedInEpoch : Nat

variable {ε : Type}

/-! ## Epochs -/

/-- The next epoch follows the ledger until its snapshots. -/
def EpochState.updateFromLedger (s : EpochState) (ledger : CryptarchiaLedger) (sdp : SdpLedger)
    (pow : PowState) (eras : EraScheduledConfig) : Result ε EpochState := do
  let config := configForEpoch eras s.epoch
  failIf (s.epoch = 0) (.panic .genesisEpoch)
  failIf (2 ^ 64 ≤ nonceSnapshot eras s.epoch) (.panic .slotNumber)
  let (nonce, difficulty) :=
    if ledger.slot < nonceSnapshot eras s.epoch then
      (ledger.nonce, match pow.lastClosedEpochLoad with
        | none => ledger.epochState.blendPowDifficulty
        | some load => computeEpochBlendDifficulty load ledger.epochState.blendPowDifficulty
            config.powConfig.blend)
    else (s.nonce, s.blendPowDifficulty)
  let (utxos, declarations) :=
    if ledger.slot < stakeDistributionSnapshot eras s.epoch then
      (ledger.utxos, sdp.activeDeclarations s.epoch config.sdpConfig.serviceParams)
    else (s.utxos, s.activeDeclarations)
  return { s with
    nonce := nonce
    blendPowDifficulty := difficulty
    utxos := utxos
    activeDeclarations := declarations }

/-- The total stake after an epoch with a density. -/
def inferTotalStake (eras : EraScheduledConfig) (epoch totalStake density : Nat) :
    Result ε Nat := do
  let inference := StakeInference.afterEpoch eras epoch
  failIf (2 ^ 64 ≤ inference.period) (.panic .slotNumber)
  expect (inference.totalStakeInference totalStake density) .totalStake

namespace CryptarchiaLedger

/-- The declarations that count at an epoch. -/
def declarationsAt (sdp : SdpLedger) (eras : EraScheduledConfig) (epoch : Nat) :
    ServiceDeclarations :=
  sdp.activeDeclarations epoch (configForEpoch eras epoch).sdpConfig.serviceParams

/-- The state of an epoch, taken from the ledger. -/
def freshEpochState (l : CryptarchiaLedger) (sdp : SdpLedger) (eras : EraScheduledConfig)
    (epoch totalStake : Nat) (lottery : Fr × Fr) (difficulty : Fr) : EpochState where
  epoch := epoch
  nonce := l.nonce
  blendPowDifficulty := difficulty
  utxos := l.utxos
  totalStake := totalStake
  lottery0 := lottery.1
  lottery1 := lottery.2
  activeDeclarations := declarationsAt sdp eras epoch

/-- The state of the next epoch comes into force. -/
def enterNextEpoch (l : CryptarchiaLedger) (slot : Nat) (next : EpochState) (sdp : SdpLedger)
    (eras : EraScheduledConfig) : Result ε CryptarchiaLedger := do
  let currentEpoch := eras.epochForSlot l.slot
  let newEpoch := eras.epochForSlot slot
  let totalStake ← inferTotalStake eras currentEpoch l.epochState.totalStake
    l.blockDensity.currentBlockDensity
  let lottery := (configForEpoch eras newEpoch).consensusConfig.lotteryConstants.computeLotteryValues
    totalStake
  let density ← BlockDensity.strictNew newEpoch eras
  let market := updateStorageMarket l.storageGasPrice l.storageGasConsumedInEpoch l.storageGasEma
    (configForEpoch eras currentEpoch).storageMarket
  return { l with
    slot := slot
    epochState :=
      { next with totalStake := totalStake, lottery0 := lottery.1, lottery1 := lottery.2 }
    nextEpochState := l.freshEpochState sdp eras (newEpoch + 1) totalStake lottery
      next.blendPowDifficulty
    previousEpochNonce := l.epochState.nonce
    blockDensity := density
    storageGasConsumedInEpoch := 0
    storageGasEma := market.2
    storageGasPrice := market.1 }

/-- After epochs without a block, which count as empty. -/
def enterLaterEpoch (l : CryptarchiaLedger) (slot : Nat) (next : EpochState) (sdp : SdpLedger)
    (eras : EraScheduledConfig) : Result ε CryptarchiaLedger := do
  let currentEpoch := eras.epochForSlot l.slot
  let newEpoch := eras.epochForSlot slot
  let skipped := List.range' next.epoch (newEpoch - next.epoch)
  let totalStake ← inferTotalStake eras currentEpoch l.epochState.totalStake
    l.blockDensity.currentBlockDensity
  let totalStake ← skipped.foldlM (fun stake epoch => inferTotalStake eras epoch stake 0) totalStake
  let lottery := (configForEpoch eras newEpoch).consensusConfig.lotteryConstants.computeLotteryValues
    totalStake
  let market := skipped.foldl (fun m epoch =>
      updateStorageMarket m.1 0 m.2 (configForEpoch eras epoch).storageMarket)
    (updateStorageMarket l.storageGasPrice l.storageGasConsumedInEpoch l.storageGasEma
      (configForEpoch eras currentEpoch).storageMarket)
  let density ← BlockDensity.strictNew newEpoch eras
  let difficulty := l.epochState.blendPowDifficulty
  return { l with
    slot := slot
    epochState := l.freshEpochState sdp eras newEpoch totalStake lottery difficulty
    nextEpochState := l.freshEpochState sdp eras (newEpoch + 1) totalStake lottery difficulty
    previousEpochNonce := l.nonce
    blockDensity := density
    storageGasConsumedInEpoch := 0
    storageGasEma := market.2
    storageGasPrice := market.1 }

/-- Moves the ledger to a slot. -/
def updateEpochState (l : CryptarchiaLedger) (slot : Nat) (sdp : SdpLedger) (pow : PowState)
    (eras : EraScheduledConfig) : Result LedgerError CryptarchiaLedger := do
  failIf (slot ≤ l.slot) (.error (.invalidSlot l.slot slot))
  let next ← l.nextEpochState.updateFromLedger l sdp pow eras
  if eras.epochForSlot l.slot = eras.epochForSlot slot then
    return { l with slot := slot, nextEpochState := next }
  else if eras.epochForSlot slot = eras.epochForSlot l.slot + 1 then
    l.enterNextEpoch slot next sdp eras
  else l.enterLaterEpoch slot next sdp eras

/-- The epoch of a later slot, if no block came before it. -/
def epochStateForSlot (l : CryptarchiaLedger) (slot : Nat) (sdp : SdpLedger) (pow : PowState)
    (eras : EraScheduledConfig) : Result LedgerError EpochState := do
  let l ← l.updateEpochState slot sdp pow eras
  return l.epochState

variable {slot : Nat} {sdp : SdpLedger} {pow : PowState} {eras : EraScheduledConfig}

/-- Moving to a slot goes forward and leaves the notes. -/
theorem updateEpochState_ok {l l' : CryptarchiaLedger}
    (h : l.updateEpochState slot sdp pow eras = .ok l') :
    l.slot < slot ∧ l'.slot = slot ∧ l'.utxos = l.utxos := by
  obtain ⟨_, h1, h2⟩ := bind_ok h
  obtain ⟨next, -, h3⟩ := bind_ok h2
  rw [failIf_ok, not_le] at h1
  split at h3
  · cases h3
    exact ⟨h1, rfl, rfl⟩
  · split at h3
    · obtain ⟨_, -, h4⟩ := bind_ok h3
      obtain ⟨_, -, h5⟩ := bind_ok h4
      cases h5
      exact ⟨h1, rfl, rfl⟩
    · obtain ⟨_, -, h4⟩ := bind_ok h3
      obtain ⟨_, -, h5⟩ := bind_ok h4
      obtain ⟨_, -, h6⟩ := bind_ok h5
      cases h6
      exact ⟨h1, rfl, rfl⟩

/-! ## Headers -/

variable [Primitives]

/-- Checks the proof of leadership. -/
def tryApplyProof (l : CryptarchiaLedger) (slot : Nat) (proof : LeaderProof)
    (eras : EraScheduledConfig) : Result LedgerError Unit := do
  failIf (eras.epochForSlot slot ≠ l.epochState.epoch) (.panic .proofEpoch)
  let publicInputs : LeaderPublic := ⟨utxosRoot l.epochState.utxos, utxosRoot l.utxos,
    l.epochState.nonce, slot, l.epochState.lottery0, l.epochState.lottery1⟩
  failIf (!Primitives.leaderVerify proof publicInputs) (.error .invalidProof)

def updateEpochStateAndApplyProof (l : CryptarchiaLedger) (slot : Nat) (proof : LeaderProof)
    (sdp : SdpLedger) (pow : PowState) (eras : EraScheduledConfig) :
    Result LedgerError CryptarchiaLedger := do
  let l ← l.updateEpochState slot sdp pow eras
  l.tryApplyProof slot proof eras
  return l

/-- The proof of leadership of a block on this state. -/
def verifyProofOfLeadership (l : CryptarchiaLedger) (slot : Nat) (proof : LeaderProof)
    (sdp : SdpLedger) (pow : PowState) (eras : EraScheduledConfig) : Result LedgerError Unit := do
  let _ ← l.updateEpochStateAndApplyProof slot proof sdp pow eras

/-- Moves to the slot of a header and adds its entropy. -/
def tryApplyHeader (l : CryptarchiaLedger) (slot : Nat) (proof : LeaderProof)
    (uncleSlots : List Nat) (sdp : SdpLedger) (pow : PowState) (eras : EraScheduledConfig) :
    Result LedgerError CryptarchiaLedger := do
  let l ← l.updateEpochStateAndApplyProof slot proof sdp pow eras
  return { l with
    nonce := Primitives.epochNonce l.nonce proof.entropyContribution slot
    blockDensity := l.blockDensity.markOccupiedSlots slot uncleSlots }

theorem tryApplyHeader_ok {l l' : CryptarchiaLedger} {proof : LeaderProof} {uncleSlots : List Nat}
    (h : l.tryApplyHeader slot proof uncleSlots sdp pow eras = .ok l') :
    l.slot < slot ∧ l'.slot = slot ∧ l'.utxos = l.utxos := by
  obtain ⟨_, h1, h2⟩ := bind_ok h
  obtain ⟨_, h3, h4⟩ := bind_ok h1
  obtain ⟨_, -, h5⟩ := bind_ok h4
  cases h5
  cases h2
  have hmoved := updateEpochState_ok h3
  exact hmoved

/-! ## Blocks -/

def updateExecutionMarket (l : CryptarchiaLedger) (gas : Nat) (market : ExecutionMarketConfig) :
    CryptarchiaLedger :=
  let after := executionMarketAfter l.averageExecutionGas l.executionBaseFee gas market
  { l with averageExecutionGas := after.1, executionBaseFee := after.2 }

def addStorageGasConsumed (l : CryptarchiaLedger) (gas : Nat) : Option CryptarchiaLedger := do
  let consumed ← checkedAdd 64 l.storageGasConsumedInEpoch gas
  return { l with storageGasConsumedInEpoch := consumed }

/-- The place of a block in the window of fees. -/
def windowIndex (blockNumber : Nat) : Fin windowSize :=
  ⟨blockNumber % windowSize, Nat.mod_lt _ (by decide)⟩

def updateFeeWindow (l : CryptarchiaLedger) (index : Fin windowSize) (totalFee : Nat) :
    CryptarchiaLedger :=
  { l with feeWindow := l.feeWindow.set index totalFee }

/-! ## Genesis -/

/-- The first ledger. The stake of some keys does not count. -/
def fromUtxos (new : List Utxo) (config : Config) (excludedKeys : List ZkPublicKey) (nonce : Fr) :
    CryptarchiaLedger :=
  let utxos := Utxos.insertAll .empty new
  let staked := utxos.items.sum fun _ e =>
    if e.1.note.pk ∈ excludedKeys then 0 else e.1.note.value
  let totalStake := max (staked % 2 ^ 64) 1
  let lottery := config.consensusConfig.lotteryConstants.computeLotteryValues totalStake
  let epochState := fun epoch => EpochState.mk epoch nonce config.powConfig.blend.baseTarget utxos
    totalStake lottery.1 lottery.2 ∅
  { utxos := utxos
    nonce := nonce
    previousEpochNonce := nonce
    slot := 0
    nextEpochState := epochState 1
    epochState := epochState 0
    blockDensity := BlockDensity.ofEpochStartingAt 0 config
    feeWindow := Vector.replicate windowSize 0
    averageExecutionGas := 0
    executionBaseFee := genesisExecutionGasPrice
    storageGasEma := 0
    storageGasPrice := genesisStorageGasPrice
    storageGasConsumedInEpoch := 0 }

/-- The first ledger, over the outputs of the genesis transfer. -/
def fromGenesisTx (transfer : TransferOp) (config : Config) (excludedKeys : List ZkPublicKey)
    (epochNonce : Fr) : Except LedgerError CryptarchiaLedger :=
  match transfer.inputs.ids with
  | first :: _ => .error (.inputInGenesis first)
  | [] => .ok (fromUtxos transfer.newUtxos config excludedKeys epochNonce)

/-- The first two epochs start with the declarations of genesis. -/
def withGenesisSdp (l : CryptarchiaLedger) (sdp : SdpLedger) (config : Config) :
    CryptarchiaLedger :=
  let declarations := fun epoch => sdp.activeDeclarations epoch config.sdpConfig.serviceParams
  { l with
    epochState := { l.epochState with activeDeclarations := declarations l.epochState.epoch }
    nextEpochState :=
      { l.nextEpochState with activeDeclarations := declarations l.nextEpochState.epoch } }

end CryptarchiaLedger

end Logos.Ledger
