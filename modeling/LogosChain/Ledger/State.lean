import LogosChain.Ledger.Cryptarchia

/-!
# The ledger and its transactions (`ledger/src/lib.rs`, `ledger/src/mantle/{mod,helpers}.rs`)

Every operation of a transaction is checked against the state that the operations before it have
left, its gas is counted, and it is executed. The value that the transfers leave pays for the gas;
the rest is a tip.
-/

namespace Logos.Ledger

open Base Mantle

/-- What operations change besides the notes. -/
structure MantleLedger where
  channels : Channels
  sdp : SdpLedger
  leaders : LeaderState
  pow : PowState

/-- The state of the ledger after a block. -/
structure LedgerState where
  blockNumber : Nat
  cryptarchiaLedger : CryptarchiaLedger
  mantleLedger : MantleLedger

namespace LedgerState

def slot (s : LedgerState) : Nat := s.cryptarchiaLedger.slot

def utxos (s : LedgerState) : Utxos := s.cryptarchiaLedger.utxos

def channels (s : LedgerState) : Channels := s.mantleLedger.channels

def serviceNotes (s : LedgerState) : ServiceNotes := s.mantleLedger.sdp.serviceNotes

/-- The prices of gas in force. -/
def getGasPrices (s : LedgerState) : GasPrices :=
  ⟨s.cryptarchiaLedger.executionBaseFee, s.cryptarchiaLedger.storageGasPrice⟩

/-- What checks read (`MantleOperationVerificationHelper`). -/
def helper (s : LedgerState) (eras : EraScheduledConfig) : OperationVerificationHelper where
  channels := s.channels
  serviceNotes := s.serviceNotes
  utxos := s.utxos
  declarationsByService := s.mantleLedger.sdp.getDeclarationsByService
  providerIndexByService := s.mantleLedger.sdp.getProviderIndexByService
  declarationById := s.mantleLedger.sdp.getDeclaration
  minStake := (configForSlot eras s.slot).sdpConfig.minStake
  epoch := s.mantleLedger.leaders.epoch
  blockSlot := s.slot
  nullifiers := s.mantleLedger.leaders.nfs
  claimableVouchersRoot := s.mantleLedger.leaders.vouchersSnapshot.root
  powRewardDifficulty := s.mantleLedger.pow.reward.rewardDifficulty
  powNullifiers := s.mantleLedger.pow.reward.nullifiers
  epochPowReward := s.mantleLedger.pow.reward.epochReward
  powRewardPool := s.mantleLedger.pow.reward.rewardPool
  currentEpochNonce := s.cryptarchiaLedger.epochState.nonce
  previousEpochNonce := s.cryptarchiaLedger.previousEpochNonce
  blocksSlot := s.mantleLedger.pow.reward.blockSlots
  powSlotWindows := powSlotWindows eras

/-! ## Parts of the state -/

def withUtxos (s : LedgerState) (utxos : Utxos) : LedgerState :=
  { s with cryptarchiaLedger := { s.cryptarchiaLedger with utxos := utxos } }

def withChannels (s : LedgerState) (channels : Channels) : LedgerState :=
  { s with mantleLedger := { s.mantleLedger with channels := channels } }

def withSdp (s : LedgerState) (sdp : SdpLedger) : LedgerState :=
  { s with mantleLedger := { s.mantleLedger with sdp := sdp } }

def withLeaders (s : LedgerState) (leaders : LeaderState) : LedgerState :=
  { s with mantleLedger := { s.mantleLedger with leaders := leaders } }

def withPow (s : LedgerState) (pow : PowState) : LedgerState :=
  { s with mantleLedger := { s.mantleLedger with pow := pow } }

end LedgerState

/-! ## Operations -/

/-- Refuses more data in an operation than the era allows. -/
def checkOpDataSize (size : Nat) (config : Config) : Result LedgerError Unit :=
  failIf (config.maxOpDataSize < size) (.error (.opDataTooLarge size config.maxOpDataSize))

section

variable [Primitives]

namespace LedgerState

def leaderClaimContext (s : LedgerState) : LeaderClaimOp.Context :=
  ⟨s.mantleLedger.leaders.nfs, s.mantleLedger.leaders.rewardAmount,
    s.mantleLedger.leaders.claimableRewards, s.utxos⟩

def claimPowContext (s : LedgerState) : ClaimPowRewardOp.ExecutionContext :=
  ⟨s.mantleLedger.pow.reward.rewardPool, s.mantleLedger.pow.reward.epochReward,
    s.mantleLedger.pow.reward.nullifiers, s.utxos, s.mantleLedger.pow.reward.blockSlots⟩

/-- Pays the claim of a leader. -/
def applyLeaderClaim (s : LedgerState) (op : LeaderClaimOp) (txHash : TxHash) :
    LedgerState × List TxEvent :=
  let (c, events) := op.execute s.leaderClaimContext txHash
  ((s.withUtxos c.utxos).withLeaders
    { s.mantleLedger.leaders with nfs := c.nullifiers, claimableRewards := c.claimableRewards },
    events)

/-- Pays the claim of a puzzle. -/
def applyClaimPow (s : LedgerState) (op : ClaimPowRewardOp) (txHash : TxHash) :
    Result LedgerError (LedgerState × List TxEvent) := do
  let (c, events) ← wrap (.mantle ∘ .claimPow) (op.execute s.claimPowContext txHash)
  let reward :=
    { s.mantleLedger.pow.reward with nullifiers := c.nullifiers, rewardPool := c.rewardPool }
  return ((s.withUtxos c.utxos).withPow { s.mantleLedger.pow with reward := reward }, events)

/-- Executes an operation. Only transfers change the balance. -/
def tryApplyOp (s : LedgerState) (op : SignedOp) (config : Config) (txHash : TxHash)
    (balance : Int) : Result LedgerError (LedgerState × Int × List TxEvent) :=
  match op with
  | .channelInscribe op _ => do
    checkOpDataSize op.inscription.length config
    return (s.withChannels (op.execute s.channels s.slot), balance, [])
  | .channelConfig op _ => return (s.withChannels (op.execute s.channels s.slot), balance, [])
  | .channelDeposit op _ => do
    checkOpDataSize op.metadata.length config
    let (channels, utxos, events) ← lift (.mantle ∘ .channel) (op.execute s.channels s.utxos txHash)
    return ((s.withChannels channels).withUtxos utxos, balance, events)
  | .channelWithdraw op _ => do
    let channels ← lift (.mantle ∘ .channel) (op.execute s.channels)
    return (s.withChannels channels, balance, [])
  | .channelTransfer op _ => do
    let (channels, utxos) ← lift (.mantle ∘ .channel) (op.execute s.channels s.utxos)
    return ((s.withChannels channels).withUtxos utxos, balance, [])
  | .sdpDeclare op _ => do
    let sdp ← wrap (.mantle ∘ .sdp)
      (s.mantleLedger.sdp.tryApplySdpDeclaration s.utxos op config.sdpConfig)
    return (s.withSdp sdp, balance, [])
  | .sdpActive op _ => do
    let sdp ← wrap (.mantle ∘ .sdp) (s.mantleLedger.sdp.applyActiveMsg op config.sdpConfig)
    return (s.withSdp sdp, balance, [])
  | .sdpWithdraw op _ => do
    let sdp ← wrap (.mantle ∘ .sdp) (s.mantleLedger.sdp.applyWithdrawnMsg op config.sdpConfig)
    return (s.withSdp sdp, balance, [])
  | .leaderClaim op _ =>
    let (s, events) := s.applyLeaderClaim op txHash
    return (s, balance, events)
  | .transfer op _ => do
    let transferBalance ← lift (.mantle ∘ .transfer) (op.balance s.utxos)
    let utxos ← lift (.mantle ∘ .transfer) (op.execute s.utxos)
    let balance ← okOr (signedWord 128 (balance + transferBalance)) (.error .balanceOverflow)
    return (s.withUtxos utxos, balance, [])
  | .claimPowReward op => do
    let (s, events) ← s.applyClaimPow op txHash
    return (s, balance, events)

end LedgerState

/-! ## Transactions -/

/-- What the operations of a transaction so far have left. -/
structure TxRun where
  state : LedgerState
  balance : Int
  executionGas : Nat
  events : List TxEvent
  deferredProofs : DeferredProofs

/-- A transaction before its first operation. -/
def TxRun.start (s : LedgerState) : TxRun := ⟨s, 0, 0, [], .empty⟩

/-- The next operation: checked, priced, and executed. -/
def TxRun.step (eras : EraScheduledConfig) (config : Config) (txHash : TxHash) (r : TxRun)
    (op : SignedOp × Nat) : Result LedgerError TxRun := do
  let deferred ← wrap .verificationError (op.1.verify op.2 txHash (r.state.helper eras))
  let gas ← okOr (op.1.operation.executionGas config.gasProfile r.state.channels)
    (.error .gasOverflow)
  let executionGas ← okOr (checkedAdd 64 r.executionGas gas) (.error .gasOverflow)
  let (state, balance, events) ← r.state.tryApplyOp op.1 config txHash r.balance
  return ⟨state, balance, executionGas, r.events ++ events, r.deferredProofs.extend deferred⟩

theorem TxRun.step_ok {eras : EraScheduledConfig} {config : Config} {txHash : TxHash}
    {r r' : TxRun} {op : SignedOp × Nat} (h : TxRun.step eras config txHash r op = .ok r') :
    ∃ deferred gas events, op.1.verify op.2 txHash (r.state.helper eras) = .ok deferred ∧
      op.1.operation.executionGas config.gasProfile r.state.channels = some gas ∧
      checkedAdd 64 r.executionGas gas = some r'.executionGas ∧
      r.state.tryApplyOp op.1 config txHash r.balance = .ok (r'.state, r'.balance, events) ∧
      r'.events = r.events ++ events ∧ r'.deferredProofs = r.deferredProofs.extend deferred := by
  obtain ⟨deferred, h1, h2⟩ := bind_ok h
  obtain ⟨gas, h3, h4⟩ := bind_ok h2
  obtain ⟨executionGas, h5, h6⟩ := bind_ok h4
  obtain ⟨⟨state, balance, events⟩, h7, h8⟩ := bind_ok h6
  cases h8
  exact ⟨deferred, gas, events, wrap_ok.mp h1, okOr_ok.mp h3, okOr_ok.mp h5, h7, rfl, rfl⟩

/-- Gas used and fees paid. -/
structure GasAndFees where
  executionGas : Nat
  storageGas : Nat
  feeBurned : Nat
  feeTip : Nat
deriving DecidableEq, Repr

namespace LedgerState

/-- The operations of a transaction one after the other. -/
def tryApplyTxOperations (s : LedgerState) (eras : EraScheduledConfig) (tx : SignedOps) :
    Result LedgerError TxRun := do
  let config := configForSlot eras s.slot
  failIf (tx.forkDigest ∉ config.acceptedForkDigests)
    (.error (.unacceptedForkDigest tx.forkDigest))
  tx.ops.zipIdx.foldlM (TxRun.step eras config tx.hash) (.start s)

/-- The state after a transaction, its fees, events and proofs. -/
def tryApplyTransaction (s : LedgerState) (eras : EraScheduledConfig) (tx : SignedOps) :
    Result LedgerError (LedgerState × GasAndFees × List TxEvent × DeferredProofs) := do
  let r ← s.tryApplyTxOperations eras tx
  let prices := r.state.getGasPrices
  let storageGas := tx.storageSize
  let executionBaseFees ← okOr (checkedMul 64 r.executionGas prices.executionBaseGasPrice)
    (.error .gasOverflow)
  let permanentStorageFees ← okOr (checkedMul 64 storageGas prices.storageGasPrice)
    (.error .gasOverflow)
  let totalGasCost ← okOr (checkedAdd 64 executionBaseFees permanentStorageFees)
    (.error .gasOverflow)
  failIf (r.balance < totalGasCost) (.error .insufficientBalance)
  let feeTip ← okOr (checkedSub (truncate 64 r.balance) totalGasCost) (.error .gasOverflow)
  return (r.state, ⟨r.executionGas, storageGas, totalGasCost, feeTip⟩, r.events, r.deferredProofs)

end LedgerState

/-! ## Block contents -/

/-- Adds gas and fees, under the gas limit of a block. -/
def GasAndFees.checkedAdd (g tx : GasAndFees) (maxGasPerBlock : Nat) :
    Except LedgerError GasAndFees := do
  failIf (maxGasPerBlock < tx.executionGas)
    (.tooMuchTransactionExecutionGas tx.executionGas maxGasPerBlock)
  let executionGas ← okOr (Base.checkedAdd 64 g.executionGas tx.executionGas) .gasOverflow
  failIf (maxGasPerBlock < executionGas) (.tooMuchExecutionGas executionGas maxGasPerBlock)
  let storageGas ← okOr (Base.checkedAdd 64 g.storageGas tx.storageGas) .gasOverflow
  let feeBurned ← okOr (Base.checkedAdd 64 g.feeBurned tx.feeBurned) .gasOverflow
  let feeTip ← okOr (Base.checkedAdd 64 g.feeTip tx.feeTip) .gasOverflow
  return ⟨executionGas, storageGas, feeBurned, feeTip⟩

/-- What the transactions of a block so far have left. -/
structure BlockRun where
  state : LedgerState
  gasAndFees : GasAndFees
  events : List TxEvent
  deferredProofs : DeferredProofs
  transactionsSize : Nat

/-- A block before its first transaction. -/
def BlockRun.start (s : LedgerState) : BlockRun := ⟨s, ⟨0, 0, 0, 0⟩, [], .empty, 0⟩

/-- One transaction of a block. -/
def BlockRun.step (eras : EraScheduledConfig) (config : Config) (b : BlockRun)
    (tx : SignedOps × Nat) : Result LedgerError BlockRun := do
  failIf (config.maxTransactions ≤ tx.2) (.error (.tooManyTransactions config.maxTransactions))
  let size := saturatingAdd 64 b.transactionsSize tx.1.storageSize
  failIf (config.maxTransactionsSize < size)
    (.error (.transactionsTooLarge size config.maxTransactionsSize))
  let (state, txGasAndFees, events, deferred) ← b.state.tryApplyTransaction eras tx.1
  let gasAndFees ← lift id
    (b.gasAndFees.checkedAdd txGasAndFees config.executionMarket.maxGasPerBlock)
  return ⟨state, gasAndFees, b.events ++ events, b.deferredProofs.extend deferred, size⟩

namespace LedgerState

/-- Shares the fees: a part to the pool, the tips to the leader. -/
def computeBlockRewards (s : LedgerState) (totalFeeBurned totalFeeTip : Nat) (config : Config) :
    Result LedgerError LedgerState := do
  let index := CryptarchiaLedger.windowIndex s.blockNumber
  let powRefill := config.powConfig.reward.powFeeShare totalFeeBurned
  let pooled ← okOr (checkedSub totalFeeBurned powRefill) (.error .gasOverflow)
  let l := s.cryptarchiaLedger.updateFeeWindow index pooled
  let (blendReward, leaderReward) := config.blockRewards.rewards l.feeWindow.toList.sum
    (l.feeWindow.get index) l.epochState.totalStake
  let leaderReward ← okOr (checkedAdd 64 leaderReward totalFeeTip) (.error .gasOverflow)
  let pow ← lift (.mantle ∘ .powRewardPool) (s.mantleLedger.pow.addRewardRefillRewards powRefill)
  return { s with
    cryptarchiaLedger := l
    mantleLedger := { s.mantleLedger with
      leaders := s.mantleLedger.leaders.addPendingRewards leaderReward
      sdp := s.mantleLedger.sdp.addBlendIncome blendReward
      pow := pow } }

/-- Settles a block: the rewards and the prices of gas. -/
def settleBlock (s : LedgerState) (g : GasAndFees) (config : Config) :
    Result LedgerError LedgerState := do
  let s ← s.computeBlockRewards g.feeBurned g.feeTip config
  let l := s.cryptarchiaLedger.updateExecutionMarket g.executionGas config.executionMarket
  let l ← okOr (l.addStorageGasConsumed g.storageGas) (.error .gasOverflow)
  return { s with cryptarchiaLedger := l }

omit [Primitives] in
/-- What settling a block changes: the fees and the gas of the ledger, and the rewards to come. -/
theorem settleBlock_ok {s s' : LedgerState} {g : GasAndFees} {config : Config}
    (h : s.settleBlock g config = .ok s') :
    ∃ pooled consumed leaderReward blendReward refill, s' = { s with
      cryptarchiaLedger := { (s.cryptarchiaLedger.updateFeeWindow
        (CryptarchiaLedger.windowIndex s.blockNumber) pooled).updateExecutionMarket g.executionGas
          config.executionMarket with storageGasConsumedInEpoch := consumed }
      mantleLedger := { s.mantleLedger with
        leaders := s.mantleLedger.leaders.addPendingRewards leaderReward
        sdp := s.mantleLedger.sdp.addBlendIncome blendReward
        pow := { s.mantleLedger.pow with
          reward := { s.mantleLedger.pow.reward with refillRewards := refill } } } } := by
  obtain ⟨s1, h1, h2⟩ := bind_ok h
  obtain ⟨l, h3, h4⟩ := bind_ok h2
  cases h4
  obtain ⟨consumed, -, h5⟩ := Option.bind_eq_some_iff.mp (okOr_ok.mp h3)
  cases h5
  obtain ⟨pooled, -, h6⟩ := bind_ok h1
  obtain ⟨leaderReward, -, h7⟩ := bind_ok h6
  obtain ⟨pow, h8, h9⟩ := bind_ok h7
  cases h9
  obtain ⟨refill, -, h10⟩ := bind_ok (lift_ok.mp h8)
  cases h10
  exact ⟨pooled, consumed, leaderReward, _, refill, rfl⟩

/-- The transactions of a block and its settlement. -/
def tryApplyBlockContents (s : LedgerState) (eras : EraScheduledConfig) (txs : List SignedOps) :
    Result LedgerError (LedgerState × List TxEvent × DeferredProofs) := do
  let config := configForSlot eras s.slot
  let b ← txs.zipIdx.foldlM (BlockRun.step eras config) (.start s)
  let s ← b.state.settleBlock b.gasAndFees config
  return (s, b.events, b.deferredProofs)

theorem tryApplyBlockContents_ok {s s' : LedgerState} {eras : EraScheduledConfig}
    {txs : List SignedOps} {events : List TxEvent} {deferred : DeferredProofs}
    (h : s.tryApplyBlockContents eras txs = .ok (s', events, deferred)) :
    ∃ b, txs.zipIdx.foldlM (BlockRun.step eras (configForSlot eras s.slot)) (.start s) = .ok b ∧
      b.state.settleBlock b.gasAndFees (configForSlot eras s.slot) = .ok s' ∧
      b.events = events ∧ b.deferredProofs = deferred := by
  obtain ⟨b, h1, h2⟩ := bind_ok h
  obtain ⟨s1, h3, h4⟩ := bind_ok h2
  cases h4
  exact ⟨b, h1, h3, rfl, rfl⟩

end LedgerState

theorem BlockRun.step_ok {eras : EraScheduledConfig} {config : Config} {b b' : BlockRun}
    {tx : SignedOps × Nat} (h : BlockRun.step eras config b tx = .ok b') :
    ∃ g events deferred,
      b.state.tryApplyTransaction eras tx.1 = .ok (b'.state, g, events, deferred) ∧
      b.gasAndFees.checkedAdd g config.executionMarket.maxGasPerBlock = .ok b'.gasAndFees ∧
      b'.events = b.events ++ events ∧
      b'.transactionsSize = saturatingAdd 64 b.transactionsSize tx.1.storageSize ∧
      b'.transactionsSize ≤ config.maxTransactionsSize ∧
      b'.deferredProofs = b.deferredProofs.extend deferred := by
  obtain ⟨_, -, h1⟩ := bind_ok h
  obtain ⟨_, hsize, h2⟩ := bind_ok h1
  obtain ⟨⟨state, g, events, deferred⟩, h3, h4⟩ := bind_ok h2
  obtain ⟨gasAndFees, h5, h6⟩ := bind_ok h4
  cases h6
  exact ⟨g, events, deferred, h3, lift_ok.mp h5, rfl, rfl, not_lt.mp (failIf_ok.mp hsize), rfl⟩

end

end Logos.Ledger
