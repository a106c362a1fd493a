import LogosChain.Mantle.Codec
import LogosChain.Mantle.Transaction

/-!
# The price of a transaction before it is signed

(`core/src/mantle/transactions/thresholds.rs`, `codec.rs`, `tx_list/ops.rs`)

A wallet knows the thresholds of the channels in some state of the ledger and predicts how the
operations of the transaction move them, since an operation costs gas and bytes for each signature
that it needs.
-/

namespace Logos.Mantle

open Base Primitives

/-- Where an operation reads its thresholds. -/
structure ThresholdSource where
  configurationThreshold : ChannelId → Nat
  transferThreshold : ChannelId → Nat

/-- The ledger answers from the live channels. -/
def Channels.thresholdSource (c : Channels) : ThresholdSource :=
  ⟨c.configurationThreshold, c.transferThreshold⟩

/-- The gas under any thresholds; none if it does not fit a word. -/
def Op.executionGasFrom (op : Op) (profile : GasProfile) (thresholds : ThresholdSource) :
    Option Nat :=
  match op with
  | .channelInscribe _ => some profile.channelInscribe
  | .channelConfig op =>
    checkedMul 64 profile.channelConfig (thresholds.configurationThreshold op.channel)
  | .channelDeposit _ => some profile.channelDeposit
  | .channelWithdraw op =>
    checkedMul 64 profile.channelWithdraw (thresholds.transferThreshold op.channelId)
  | .channelTransfer op =>
    checkedMul 64 profile.channelTransfer (thresholds.transferThreshold op.channelId)
  | .sdpDeclare _ => some profile.sdpDeclare
  | .sdpWithdraw _ => some profile.sdpWithdraw
  | .sdpActive _ => some profile.sdpActive
  | .leaderClaim _ => some profile.leaderClaim
  | .transfer _ => some profile.transfer
  | .claimPowReward _ => some profile.claimPowReward

theorem Op.executionGasFrom_channels (op : Op) (profile : GasProfile) (c : Channels) :
    op.executionGasFrom profile c.thresholdSource = op.executionGas profile c := by
  cases op <;> rfl

/-- What a transaction is priced against. -/
structure OpsGasContext where
  transferThresholds : Map ChannelId Nat
  configurationThresholds : Map ChannelId Nat
  gasPrices : GasPrices
  gasProfile : GasProfile

def OpsGasContext.fromChannels (channels : Channels) (basePrices : GasPrices)
    (gasProfile : GasProfile) : OpsGasContext where
  transferThresholds := Map.mapValues (·.transferThreshold) channels.channels
  configurationThresholds := Map.mapValues (·.configurationThreshold) channels.channels
  gasPrices := basePrices
  gasProfile := gasProfile

/-- What a builder knows of the ledger. -/
structure OpsContext where
  gasContext : OpsGasContext
  leaderRewardAmount : Nat

/-- The thresholds as operations move them. -/
structure RunningThresholds where
  context : OpsGasContext
  transferThresholds : Map ChannelId Nat
  configurationThresholds : Map ChannelId Nat

namespace RunningThresholds

def new (context : OpsGasContext) : RunningThresholds := ⟨context, ∅, ∅⟩

def channelExists (t : RunningThresholds) (channel : ChannelId) : Bool :=
  (t.configurationThresholds.lookup channel).isSome ||
    (t.context.configurationThresholds.lookup channel).isSome

/-- The thresholds after an operation that has been priced. -/
def apply (t : RunningThresholds) (op : Op) : RunningThresholds :=
  match op with
  | .channelConfig op =>
    { t with
      transferThresholds := t.transferThresholds.insert op.channel op.transferThreshold
      configurationThresholds :=
        t.configurationThresholds.insert op.channel op.configurationThreshold }
  | .channelInscribe op =>
    -- An inscription creates the channel when it does not exist yet.
    if t.channelExists op.channelId then t
    else
      { t with
        transferThresholds := t.transferThresholds.insert op.channelId defaultTransferThreshold
        configurationThresholds := t.configurationThresholds.insert op.channelId 1 }
  | _ => t

def transferThreshold (t : RunningThresholds) (channel : ChannelId) : Nat :=
  ((t.transferThresholds.lookup channel).or (t.context.transferThresholds.lookup channel)).getD 0

def configurationThreshold (t : RunningThresholds) (channel : ChannelId) : Nat :=
  ((t.configurationThresholds.lookup channel).or
    (t.context.configurationThresholds.lookup channel)).getD 0

def source (t : RunningThresholds) : ThresholdSource :=
  ⟨t.configurationThreshold, t.transferThreshold⟩

end RunningThresholds

/-- An amount of gas or its cost does not fit a word. -/
structure GasOverflow where
deriving DecidableEq

section

variable [Primitives]

def calculateChannelMultiSigProofByteSize (threshold : Nat) : Nat :=
  2 + threshold * (2 + ed25519SignatureSize)

/-- The size of the proof that an operation needs. -/
def Op.proofSize (op : Op) (thresholds : ThresholdSource) : Nat :=
  match op with
  | .channelInscribe _ => ed25519SignatureSize
  | .channelConfig op =>
    calculateChannelMultiSigProofByteSize (thresholds.configurationThreshold op.channel)
  | .sdpDeclare _ => compressedProofSize + ed25519SignatureSize
  | .sdpWithdraw _ => compressedProofSize
  | .sdpActive _ => compressedProofSize
  | .leaderClaim _ => compressedProofSize
  | .transfer _ => compressedProofSize
  | .channelDeposit _ => compressedProofSize
  | .channelWithdraw op =>
    calculateChannelMultiSigProofByteSize (thresholds.transferThreshold op.channelId)
  | .channelTransfer op =>
    calculateChannelMultiSigProofByteSize (thresholds.transferThreshold op.channelId)
  | .claimPowReward _ => 0

namespace Ops

/-- The size of one operation with its proof. -/
def sizeStep (acc : RunningThresholds × Nat) (op : Op) : RunningThresholds × Nat :=
  (acc.1.apply op, acc.2 + op.proofSize acc.1.source)

/-- The least size of the transaction once it is signed. -/
def minimumSignedTransactionSize (tx : Ops) (context : OpsGasContext) : Nat :=
  opsEncodedLength tx.forkDigest tx.ops + (tx.ops.foldl sizeStep (.new context, 0)).2

omit [Primitives] in
/-- The gas of one operation. -/
def gasStep (gasProfile : GasProfile) (acc : RunningThresholds × Nat) (op : Op) :
    Except GasOverflow (RunningThresholds × Nat) := do
  let gas ← okOr (op.executionGasFrom gasProfile acc.1.source) ⟨⟩
  let total ← okOr (checkedAdd 64 acc.2 gas) ⟨⟩
  return (acc.1.apply op, total)

omit [Primitives] in
def executionGasConsumption (tx : Ops) (context : OpsGasContext) : Except GasOverflow Nat := do
  let (_, total) ← tx.ops.foldlM (gasStep context.gasProfile) (.new context, 0)
  return total

def storageGasConsumption (tx : Ops) (context : OpsGasContext) : Except GasOverflow Nat :=
  .ok (tx.minimumSignedTransactionSize context)

def storageGasCost (tx : Ops) (context : OpsGasContext) : Except GasOverflow Nat := do
  let gas ← tx.storageGasConsumption context
  okOr (checkedMul 64 gas context.gasPrices.storageGasPrice) ⟨⟩

/-- The price of execution and storage. -/
def totalGasCost (tx : Ops) (context : OpsGasContext) : Except GasOverflow Nat := do
  let executionGas ← tx.executionGasConsumption context
  let executionGasCost ←
    okOr (checkedMul 64 executionGas context.gasPrices.executionBaseGasPrice) ⟨⟩
  let storageGasCost ← tx.storageGasCost context
  okOr (checkedAdd 64 executionGasCost storageGasCost) ⟨⟩

end Ops

end

/-- The thresholds are those of the channels that exist. -/
structure RunningThresholds.Follows (t : RunningThresholds) (c : Channels) : Prop where
  source : t.source = c.thresholdSource
  channelExists : ∀ k, t.channelExists k = (c.channelState k).isSome

namespace RunningThresholds

variable {t : RunningThresholds} {c c' : Channels}

theorem Follows.new (c : Channels) (prices : GasPrices) (profile : GasProfile) :
    (new (.fromChannels c prices profile)).Follows c where
  source := by
    refine congrArg₂ ThresholdSource.mk (funext fun k => ?_) (funext fun k => ?_)
    · simp [configurationThreshold, Channels.configurationThreshold, RunningThresholds.new,
        OpsGasContext.fromChannels, Map.lookup_mapValues]
    · simp [transferThreshold, Channels.transferThreshold, RunningThresholds.new,
        OpsGasContext.fromChannels, Map.lookup_mapValues]
  channelExists k := by
    simp [RunningThresholds.channelExists, Channels.channelState, RunningThresholds.new,
      OpsGasContext.fromChannels, Map.lookup_mapValues]

theorem Follows.kept (h : t.Follows c) (hc : c'.channels = c.channels) : t.Follows c' := by
  have hsource : c'.thresholdSource = c.thresholdSource := by
    refine congrArg₂ ThresholdSource.mk (funext fun k => ?_) (funext fun k => ?_)
    · rw [Channels.configurationThreshold, Channels.configurationThreshold, hc]
    · rw [Channels.transferThreshold, Channels.transferThreshold, hc]
  refine ⟨h.source.trans hsource.symm, fun k => ?_⟩
  rw [h.channelExists, Channels.channelState, Channels.channelState, hc]

/-- A channel with another state and its thresholds. -/
theorem Follows.set (h : t.Follows c) {k : ChannelId} {state : ChannelState}
    {configuration transfer : Nat} (hc : state.configurationThreshold = configuration)
    (ht : state.transferThreshold = transfer) :
    Follows { t with
      transferThresholds := t.transferThresholds.insert k transfer
      configurationThresholds := t.configurationThresholds.insert k configuration }
      (c.setChannel k state) where
  source := by
    subst hc ht
    have hconfiguration := congrArg ThresholdSource.configurationThreshold h.source
    have htransfer := congrArg ThresholdSource.transferThreshold h.source
    refine congrArg₂ ThresholdSource.mk (funext fun k' => ?_) (funext fun k' => ?_)
    · have hold := congrFun hconfiguration k'
      simp only [RunningThresholds.source, Channels.thresholdSource, configurationThreshold,
        Channels.configurationThreshold, Channels.setChannel, Map.lookup_insert_ite] at hold ⊢
      split
      · rfl
      · exact hold
    · have hold := congrFun htransfer k'
      simp only [RunningThresholds.source, Channels.thresholdSource, transferThreshold,
        Channels.transferThreshold, Channels.setChannel, Map.lookup_insert_ite] at hold ⊢
      split
      · rfl
      · exact hold
  channelExists k' := by
    have hold := h.channelExists k'
    grind [RunningThresholds.channelExists, Channels.channelState_setChannel, Map.lookup_insert_ite]

/-- A channel with another state of the same thresholds. -/
theorem Follows.refresh (h : t.Follows c) {k : ChannelId} {state state' : ChannelState}
    (hk : c.channelState k = some state)
    (hconfiguration : state'.configurationThreshold = state.configurationThreshold)
    (htransfer : state'.transferThreshold = state.transferThreshold) :
    t.Follows (c.setChannel k state') := by
  have hlookup : c.channels.lookup k = some state := hk
  have hsource : (c.setChannel k state').thresholdSource = c.thresholdSource := by
    refine congrArg₂ ThresholdSource.mk (funext fun k' => ?_) (funext fun k' => ?_)
    · grind [Channels.configurationThreshold, Channels.setChannel, Map.lookup_insert_ite]
    · grind [Channels.transferThreshold, Channels.setChannel, Map.lookup_insert_ite]
  refine ⟨h.source.trans hsource.symm, fun k' => ?_⟩
  grind [Channels.channelState_setChannel, channelExists]

variable [Primitives]

theorem Follows.configured (h : t.Follows c) (op : ChannelConfigOp) (slot : Nat) :
    (t.apply (.channelConfig op)).Follows (op.execute c slot) :=
  h.set rfl rfl

theorem Follows.inscribed (h : t.Follows c) (op : InscriptionOp) (slot : Nat) :
    (t.apply (.channelInscribe op)).Follows (op.execute c slot) := by
  unfold InscriptionOp.execute
  cases hstate : c.channelState op.channelId with
  | some state =>
    have hexists : t.channelExists op.channelId = true := by
      rw [h.channelExists, hstate]
      rfl
    have happly : t.apply (.channelInscribe op) = t := if_pos hexists
    rw [happly]
    exact h.refresh hstate rfl rfl
  | none =>
    have hexists : ¬t.channelExists op.channelId = true := by
      rw [h.channelExists, hstate]
      exact Bool.false_ne_true
    have happly : t.apply (.channelInscribe op) = { t with
        transferThresholds := t.transferThresholds.insert op.channelId defaultTransferThreshold
        configurationThresholds := t.configurationThresholds.insert op.channelId 1 } :=
      if_neg hexists
    rw [happly]
    exact h.set rfl rfl

end RunningThresholds

end Logos.Mantle
