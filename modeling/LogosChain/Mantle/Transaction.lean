import LogosChain.Mantle.Ops.Channel
import LogosChain.Mantle.Ops.Sdp
import LogosChain.Mantle.Ops.Value

/-!
# Signed transactions (`core/src/mantle/ops/signed_op.rs`, `transactions`, `gas.rs`)

An operation is checked without the ledger (`preverify`), then against the ledger as the operations
before it have left it (`verify`), which leaves proofs to be checked together with those of other
operations.
-/

namespace Logos.Mantle

open Base

/-- What the checks of an operation read of the ledger. -/
structure OperationVerificationHelper where
  channels : Channels
  serviceNotes : ServiceNotes
  utxos : Utxos
  declarationsByService : ServiceType → Option Declarations
  providerIndexByService : ServiceType → Option ProviderIndex
  declarationById : DeclarationId → Option Declaration
  minStake : MinStake
  epoch : Nat
  blockSlot : Nat
  nullifiers : Finset VoucherNullifier
  claimableVouchersRoot : RewardsRoot
  powRewardDifficulty : Fr
  powNullifiers : Map PowNullifier Nat
  epochPowReward : Nat
  powRewardPool : Nat
  currentEpochNonce : Fr
  previousEpochNonce : Fr
  blocksSlot : Map Hash Nat
  powSlotWindows : EraSchedule Nat

def OperationVerificationHelper.claimContext (h : OperationVerificationHelper) :
    ClaimPowRewardOp.VerificationContext where
  currentBlockSlot := h.blockSlot
  rewardDifficulty := h.powRewardDifficulty
  powNullifiers := h.powNullifiers
  epochPowReward := h.epochPowReward
  epochRewardPool := h.powRewardPool
  currentEpochNonce := h.currentEpochNonce
  previousEpochNonce := h.previousEpochNonce
  blocksSlot := h.blocksSlot
  slotWindows := h.powSlotWindows

section

variable [Primitives]

def DeferredProofs.zkSig (p : ZkSignature × ZkSignInputs) : DeferredProofs := ⟨[p], []⟩

def DeferredProofs.leaderClaim (p : LeaderClaimProof × PoCInput) : DeferredProofs := ⟨[], [p]⟩

namespace SignedOp

/-- What can be checked of an operation without the ledger. -/
def preverify (op : SignedOp) (txHash : TxHash) : Except VerificationError Unit :=
  match op with
  | .channelInscribe op proof => (op.preverify proof txHash).mapError .channelVerificationError
  | .channelConfig _ _ => .ok ()
  | .channelDeposit op _ => op.preverify.mapError .channelVerificationError
  | .channelWithdraw op _ => op.preverify.mapError .channelVerificationError
  | .channelTransfer op _ => op.preverify.mapError .channelVerificationError
  | .sdpDeclare op proof => (op.preverify proof txHash).mapError .sdpVerificationError
  | .sdpWithdraw _ _ => .ok ()
  | .sdpActive _ _ => .ok ()
  | .leaderClaim op proof => (op.preverify proof txHash).mapError .leaderClaimVerificationError
  | .transfer op _ => op.preverify.mapError .transferVerificationError
  | .claimPowReward _ => .ok ()

/-- Checks an operation, and leaves its proofs (`into_verified`). -/
def verify (op : SignedOp) (opIndex : Nat) (txHash : TxHash) (h : OperationVerificationHelper) :
    Result VerificationError DeferredProofs :=
  match op with
  | .channelInscribe op _ => do
    wrap .channelVerificationError (op.verify h.channels h.blockSlot)
    return .empty
  | .channelConfig op proof => do
    lift .channelVerificationError (op.verify proof h.channels txHash)
    return .empty
  | .channelDeposit op proof => do
    let p ← lift .channelVerificationError
      (op.verify proof h.channels h.serviceNotes h.utxos txHash)
    return .zkSig p
  | .channelWithdraw op proof => do
    lift .channelVerificationError
      (op.verify proof h.channels h.serviceNotes h.utxos txHash opIndex)
    return .empty
  | .channelTransfer op proof => do
    lift .channelVerificationError
      (op.verify proof h.channels h.serviceNotes h.utxos txHash opIndex)
    return .empty
  | .sdpDeclare op proof => do
    let declarations ← okOr (h.declarationsByService op.serviceType)
      (.error (.sdpVerificationError (.serviceNotFound op.serviceType)))
    let providerIndex ← okOr (h.providerIndexByService op.serviceType)
      (.error (.sdpVerificationError (.serviceNotFound op.serviceType)))
    let p ← lift .sdpVerificationError (op.verify proof h.utxos h.channels h.serviceNotes txHash
      declarations providerIndex h.minStake)
    return .zkSig p
  | .sdpWithdraw op proof => do
    let declaration ← okOr (h.declarationById op.declarationId)
      (.error (.sdpVerificationError (.declarationNotFound op.declarationId)))
    let p ← lift .sdpVerificationError (op.verify proof declaration h.serviceNotes txHash)
    return .zkSig p
  | .sdpActive op proof => do
    let declaration ← okOr (h.declarationById op.declarationId)
      (.error (.sdpVerificationError (.declarationNotFound op.declarationId)))
    let p ← lift .sdpVerificationError (op.verify proof declaration txHash h.epoch)
    return .zkSig p
  | .leaderClaim op proof => do
    let p ← lift .leaderClaimVerificationError
      (op.verify proof h.nullifiers h.claimableVouchersRoot txHash)
    return .leaderClaim p
  | .transfer op proof => do
    let p ← lift .transferVerificationError
      (op.verify proof h.serviceNotes h.channels h.utxos txHash)
    return .zkSig p
  | .claimPowReward op => do
    lift .claimPowRewardError (op.verify h.claimContext)
    return .empty

end SignedOp

/-- What can be checked of a transaction without the ledger. -/
def SignedOps.preverify (tx : SignedOps) : Except VerificationError Unit :=
  tx.ops.forM (·.preverify tx.hash)

end

/-- The gas of each operation in an era. -/
structure GasProfile where
  transfer : Nat
  channelConfig : Nat
  channelInscribe : Nat
  channelDeposit : Nat
  channelWithdraw : Nat
  channelTransfer : Nat
  sdpDeclare : Nat
  sdpWithdraw : Nat
  sdpActive : Nat
  leaderClaim : Nat
  claimPowReward : Nat
deriving DecidableEq, Repr

/-- The prices of both kinds of gas. -/
structure GasPrices where
  executionBaseGasPrice : Nat
  storageGasPrice : Nat
deriving DecidableEq, Repr

/-- The gas of an operation; none if it does not fit a word. -/
def Op.executionGas (op : Op) (profile : GasProfile) (channels : Channels) : Option Nat :=
  match op with
  | .channelInscribe _ => some profile.channelInscribe
  | .channelConfig op =>
    checkedMul 64 profile.channelConfig (channels.configurationThreshold op.channel)
  | .channelDeposit _ => some profile.channelDeposit
  | .channelWithdraw op =>
    checkedMul 64 profile.channelWithdraw (channels.transferThreshold op.channelId)
  | .channelTransfer op =>
    checkedMul 64 profile.channelTransfer (channels.transferThreshold op.channelId)
  | .sdpDeclare _ => some profile.sdpDeclare
  | .sdpWithdraw _ => some profile.sdpWithdraw
  | .sdpActive _ => some profile.sdpActive
  | .leaderClaim _ => some profile.leaderClaim
  | .transfer _ => some profile.transfer
  | .claimPowReward _ => some profile.claimPowReward

end Logos.Mantle
