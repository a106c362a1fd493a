import LogosChain.Ledger.Epoch
import Mathlib.Data.Nat.NthRoot.Defs

/-!
# Proof of work (`ledger/src/mantle/pow`)

Puzzles are anchored to recent blocks. A solved puzzle is worth a reward from a pool that a share of
the fees refills; a window of slots limits how old the block of a puzzle may be, and the solved
puzzles are kept for that window.
-/

namespace Logos.Ledger

open Base Mantle

/-- The blocks and the transactions of an epoch. -/
structure EpochTotals where
  blocks : Nat
  txs : Nat
deriving DecidableEq, Repr

/-- The counts of the epoch so far and of the last closed epoch. -/
structure TxDensity where
  currentEpoch : EpochTotals
  lastClosedEpoch : Option EpochTotals
deriving DecidableEq, Repr

namespace TxDensity

def new : TxDensity := ⟨⟨0, 0⟩, none⟩

/-- Counts a block. -/
def recordBlock {ε : Type} (d : TxDensity) (txsInBlock : Nat) : Result ε TxDensity := do
  let blocks ← expect (checkedAdd 64 d.currentEpoch.blocks 1) .txDensity
  let txs ← expect (checkedAdd 64 d.currentEpoch.txs txsInBlock) .txDensity
  return { d with currentEpoch := ⟨blocks, txs⟩ }

/-- The counters start again. -/
def closeEpoch (d : TxDensity) : TxDensity := ⟨⟨0, 0⟩, some d.currentEpoch⟩

end TxDensity

/-- The next target of the Blend network, from a closed epoch. -/
def computeEpochBlendDifficulty (load : EpochTotals) (previous : Fr) (config : BlendPoWConfig) :
    Fr :=
  let low := previous / config.maxStep
  let high := previous * config.maxStep
  let saturating := fun n => min n (frModulus - 1)
  if load.txs = 0 then saturating high
  else
    let (a, b) := config.dampingExponent
    let denominator := config.targetTransactionsPerBlock * load.blocks
    let radicand := config.baseTarget ^ b * denominator ^ a / load.txs ^ a
    saturating (min (max (Nat.nthRoot b radicand) low) high)

/-- The target after a block (`compute_new_reward_difficulty`). -/
def computeNewRewardDifficulty (claimsAcceptedInBlock : Nat) (current : Fr)
    (config : RewardPoWConfig) : Fr :=
  let observationWeight := config.emaSmoothingPrecision - config.emaSmoothingFactor
  let demandNumerator := max (observationWeight * claimsAcceptedInBlock +
    config.emaSmoothingFactor * config.targetClaimsPerBlock) 1
  let newTarget := config.targetClaimsPerBlock * (current * config.emaSmoothingPrecision) /
    demandNumerator
  min (max newTarget config.rewardTargetFloor) config.genesisTarget

/-- The reward of a claim, from the pool (`compute_epoch_pow_reward`). -/
def computeEpochPowReward (powRewardPool : Nat) (config : Config) : Nat :=
  min (powRewardPool * config.powConfig.reward.rateNum / config.claimRateDenominator) (2 ^ 64 - 1)

/-- The pool, the target, the recent blocks and the solved puzzles. -/
structure RewardPowState where
  rewardPool : Nat
  epochReward : Nat
  rewardDifficulty : Fr
  refillRewards : Nat
  /-- The solved puzzles, with the slots of their blocks. -/
  nullifiers : Map PowNullifier Nat
  blockSlots : Map Hash Nat
deriving DecidableEq

/-- The puzzles of both kinds. -/
structure PowState where
  reward : RewardPowState
  txDensity : TxDensity
deriving DecidableEq

inductive PowRewardPoolOverflow where
  | overflow
deriving DecidableEq, Repr

/-- A claim on a block may still be in the window of its era. -/
def isWithinSlotWindow (anchorSlot current : Nat) (slotWindows : EraSchedule Nat) : Bool :=
  current - anchorSlot ≤ (slotWindows.atSlot anchorSlot).parameters

namespace PowState

def fromRewardPoolAndConfig (powRewardPool : Nat) (config : Config) : PowState where
  reward := ⟨powRewardPool, computeEpochPowReward powRewardPool config,
    config.powConfig.reward.genesisTarget, 0, ∅, ∅⟩
  txDensity := .new

/-- Moves the refill of an epoch to the pool. -/
def addRewardsToPool (s : PowState) (config : Config) : Except PowRewardPoolOverflow PowState := do
  let pool ← okOr (checkedAdd 64 s.reward.rewardPool s.reward.refillRewards) .overflow
  return { s with reward := { s.reward with
    rewardPool := pool
    refillRewards := 0
    epochReward := computeEpochPowReward pool config } }

def addRewardRefillRewards (s : PowState) (reward : Nat) :
    Except PowRewardPoolOverflow PowState := do
  let refill ← okOr (checkedAdd 64 s.reward.refillRewards reward) .overflow
  return { s with reward := { s.reward with refillRewards := refill } }

/-- Moves the target with the claims of a block. -/
def updateDifficulty (s : PowState) (claimsInBlock : Nat) (config : RewardPoWConfig) : PowState :=
  let target := computeNewRewardDifficulty claimsInBlock s.reward.rewardDifficulty config
  { s with reward := { s.reward with rewardDifficulty := target } }

def addSeenBlockSlots (s : PowState) (blockHash : Hash) (slot : Nat) : PowState :=
  { s with reward := { s.reward with blockSlots := s.reward.blockSlots.insert blockHash slot } }

/-- Forgets the blocks that are out of their window. -/
def pruneSeenBlockSlots (s : PowState) (current : Nat) (slotWindows : EraSchedule Nat) : PowState :=
  let kept := Map.filter (fun _ slot => isWithinSlotWindow slot current slotWindows)
    s.reward.blockSlots
  { s with reward := { s.reward with blockSlots := kept } }

/-- Forgets the puzzles whose blocks are out of their window. -/
def pruneNullifiersBySlots (s : PowState) (current : Nat) (slotWindows : EraSchedule Nat) :
    PowState :=
  let kept := Map.filter (fun _ slot => isWithinSlotWindow slot current slotWindows)
    s.reward.nullifiers
  { s with reward := { s.reward with nullifiers := kept } }

def recordBlockTxs {ε : Type} (s : PowState) (txsInBlock : Nat) : Result ε PowState := do
  let density ← s.txDensity.recordBlock txsInBlock
  return { s with txDensity := density }

def lastClosedEpochLoad (s : PowState) : Option EpochTotals := s.txDensity.lastClosedEpoch

/-- An epoch starts with the pool refilled and the counts closed. -/
def tryApplyHeader (s : PowState) (previousEpoch nextEpoch : Nat) (config : Config) :
    Except PowRewardPoolOverflow PowState :=
  if nextEpoch ≤ previousEpoch then .ok s
  else do
    let s ← s.addRewardsToPool config
    return { s with txDensity := TxDensity.closeEpoch^[nextEpoch - previousEpoch] s.txDensity }

end PowState

end Logos.Ledger
