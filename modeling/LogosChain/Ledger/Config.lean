import LogosChain.Engine.Cryptarchia
import LogosChain.Mantle.Transaction
import Mathlib.Algebra.Order.Field.Rat

/-!
# The parameters of an era (`ledger/src/config.rs`)

What the code computes from the parameters in floating point is a parameter here: the length of a
base period, and the scaled learning rate and slot activation coefficient.
-/

namespace Logos.Ledger

open Base Mantle

/-! ## Fractions -/

structure NonNegativeRatio where
  numerator : Nat
  denominator : Nat
  denominator_pos : 0 < denominator
deriving Repr

/-- A fraction strictly between 0 and 1. -/
structure ProperFraction where
  numerator : Nat
  denominator : Nat
  numerator_pos : 0 < numerator
  numerator_lt : numerator < denominator
deriving Repr

namespace ProperFraction

def half : ProperFraction := ⟨1, 2, Nat.one_pos, Nat.one_lt_two⟩

/-- The fraction as a number. -/
def val (f : ProperFraction) : ℚ := f.numerator / f.denominator

variable (f : ProperFraction)

theorem denominator_pos : 0 < f.denominator := f.numerator_pos.trans f.numerator_lt

theorem cast_denominator_pos : (0 : ℚ) < f.denominator := Nat.cast_pos.mpr f.denominator_pos

theorem val_pos : 0 < f.val := div_pos (Nat.cast_pos.mpr f.numerator_pos) f.cast_denominator_pos

theorem val_lt_one : f.val < 1 :=
  (div_lt_one₀ f.cast_denominator_pos).mpr (Nat.cast_lt.mpr f.numerator_lt)

theorem one_sub_val : 1 - f.val = ((f.denominator - f.numerator : Nat) : ℚ) / f.denominator := by
  rw [val, Nat.cast_sub f.numerator_lt.le, sub_div, div_self f.cast_denominator_pos.ne']

theorem one_add_val : 1 + f.val = ((f.denominator + f.numerator : Nat) : ℚ) / f.denominator := by
  rw [val, Nat.cast_add, add_div, div_self f.cast_denominator_pos.ne']

end ProperFraction

/-- The quotient of two numbers, rounded up. -/
def divCeil (a b : Nat) : Nat := (a + b - 1) / b

/-! ## Consensus -/

/-- The constants of the lottery of the leaders. -/
structure LotteryConstants where
  t0Constant : Nat
  t1Constant : Nat
deriving Repr

/-- The lottery values of a total stake. -/
def LotteryConstants.computeLotteryValues (c : LotteryConstants) (totalStake : Nat) : Fr × Fr :=
  (c.t0Constant / totalStake, frModulus - c.t1Constant / totalStake ^ 2)

/-- The parameters of consensus that the ledger reads. -/
structure ConsensusConfig extends Engine.Config where
  slotActivationCoeff : NonNegativeRatio
  basePeriodLength : Nat
  learningRateWithPrecision : Nat
  slotActivationCoeffWithPrecision : Nat
  lotteryConstants : LotteryConstants
  basePeriodLength_pos : 0 < basePeriodLength

/-- The phases of an epoch, in base periods. -/
structure EpochConfig where
  epochStakeDistributionStabilization : Nat
  epochPeriodNonceBuffer : Nat
  epochPeriodNonceStabilization : Nat
  epochStakeDistributionStabilization_pos : 0 < epochStakeDistributionStabilization
deriving Repr

def EpochConfig.epochLength (c : EpochConfig) (basePeriodLength : Nat) : Nat :=
  saturatingMul 64
    (saturatingAdd 64
      (saturatingAdd 64 c.epochStakeDistributionStabilization c.epochPeriodNonceBuffer)
      c.epochPeriodNonceStabilization)
    basePeriodLength

/-! ## Proof of work -/

/-- Only a valid one can be loaded (`RewardPoWConfig::validate`). -/
structure RewardPoWConfig where
  /-- The exponent of the easiest target. -/
  minimumDifficulty : Nat
  emaSmoothingFactor : Nat
  emaSmoothingPrecision : Nat
  targetClaimsPerBlock : Nat
  rateNum : Nat
  rateDen : Nat
  targetClaimPerBlock : Nat
  powShare : Nat
  shareDen : Nat
  slotWindow : Nat
  emaSmoothingFactor_lt : emaSmoothingFactor < emaSmoothingPrecision
  rateDen_pos : 0 < rateDen
  targetClaimPerBlock_pos : 0 < targetClaimPerBlock
  shareDen_pos : 0 < shareDen
  powShare_le : powShare ≤ shareDen
deriving Repr

namespace RewardPoWConfig

/-- The easiest target, `p / 2 ^ n`. -/
def genesisTarget (c : RewardPoWConfig) : Fr := frModulus / 2 ^ c.minimumDifficulty

def rewardTargetFloor (c : RewardPoWConfig) : Nat :=
  max (divCeil c.emaSmoothingFactor (c.emaSmoothingPrecision - c.emaSmoothingFactor)) 1

def claimRateScale (c : RewardPoWConfig) : Nat := c.rateDen * c.targetClaimPerBlock

/-- The share of the fees that goes to the pool of the puzzles. -/
def powFeeShare (c : RewardPoWConfig) (collectedFees : Nat) : Nat :=
  collectedFees * c.powShare / c.shareDen

theorem powFeeShare_le (c : RewardPoWConfig) (fees : Nat) : c.powFeeShare fees ≤ fees := by
  apply Nat.div_le_of_le_mul
  simp [Nat.mul_le_mul_left, Nat.mul_comm, powShare_le]

end RewardPoWConfig

/-- The parameters of the puzzles of the Blend network. -/
structure BlendPoWConfig where
  /-- The exponent of the target at the reference load. -/
  baseDifficulty : Nat
  targetTransactionsPerBlock : Nat
  maxStep : Nat
  dampingNum : Nat
  dampingDenOffset : Nat
  dampingNum_pos : 0 < dampingNum
deriving Repr

namespace BlendPoWConfig

/-- The target at the reference load, `p / 2 ^ n`. -/
def baseTarget (c : BlendPoWConfig) : Fr := frModulus / 2 ^ c.baseDifficulty

def dampingExponent (c : BlendPoWConfig) : Nat × Nat :=
  (c.dampingNum, c.dampingNum + c.dampingDenOffset)

end BlendPoWConfig

/-- The parameters of both kinds of puzzles. -/
structure PoWConfig where
  blend : BlendPoWConfig
  reward : RewardPoWConfig
deriving Repr

/-! ## Markets and rewards -/

/-- The parameters of the base fee of execution gas. -/
structure ExecutionMarketConfig where
  maxGasPerBlock : Nat
  feeAdjustmentRate : ProperFraction
  emaSmoothingFactor : ProperFraction
  maxGasPerBlock_ge : 2 ≤ maxGasPerBlock
deriving Repr

/-- The parameters of the price of storage gas. -/
structure StorageMarketConfig where
  maxAdjustmentFactor : ProperFraction
  emaSmoothingFactor : ProperFraction
deriving Repr

/-- How a block is rewarded, with every reward in a word. -/
structure BlockRewardsConfig where
  stakeTarget : Nat
  emissionFactorScale : Nat
  feeAverageNumerator : Nat
  maxEmissionPerBlock : NonNegativeRatio
  blendShare : ProperFraction
  emissionFactorScale_pos : 0 < emissionFactorScale
  bounded : maxEmissionPerBlock.denominator * emissionFactorScale * blendShare.denominator ≤
    (2 ^ 128 - 1) / (2 ^ 64 - 1)
deriving Repr

/-- The rewards of the Blend nodes and of the leader, before tips. -/
def BlockRewardsConfig.rewards (c : BlockRewardsConfig) (pooledFees blockFee totalStake : Nat) :
    Nat × Nat :=
  let scale := c.emissionFactorScale
  let emissionWeight := min
    (saturatingAdd 128 c.stakeTarget (saturatingMul 128 c.feeAverageNumerator pooledFees) -
      totalStake)
    scale
  let rewardNumerator := c.maxEmissionPerBlock.numerator * emissionWeight +
    c.maxEmissionPerBlock.denominator * (scale - emissionWeight) * blockFee
  let denominator := c.maxEmissionPerBlock.denominator * scale * c.blendShare.denominator
  (rewardNumerator * c.blendShare.numerator / denominator,
    rewardNumerator * (c.blendShare.denominator - c.blendShare.numerator) / denominator)

/-! ## Services -/

/-- The parameters of a service. -/
structure ServiceParameters where
  inactivityPeriod : Nat
  epoch : Nat
  inactivityPeriod_ge : snapshotFinalizationDelay ≤ inactivityPeriod
deriving Repr

/-- The parameters of the services. -/
structure SdpConfig where
  serviceParams : Map ServiceType ServiceParameters
  blendRewardsParams : RewardsParameters
  minStake : MinStake

/-! ## The parameters of an era -/

/-- The parameters of an era. -/
structure Config where
  epochConfig : EpochConfig
  consensusConfig : ConsensusConfig
  maxTransactions : Nat
  maxTransactionsSize : Nat
  maxOpDataSize : Nat
  sdpConfig : SdpConfig
  powConfig : PoWConfig
  acceptedForkDigests : List ForkDigest
  executionMarket : ExecutionMarketConfig
  storageMarket : StorageMarketConfig
  blockRewards : BlockRewardsConfig
  gasProfile : GasProfile

namespace Config

/-- The slots of an epoch. -/
def epochLength (c : Config) : Nat := c.epochConfig.epochLength c.consensusConfig.basePeriodLength

def expectedBlocksPerEpoch (c : Config) : Nat :=
  min (c.epochLength * c.consensusConfig.slotActivationCoeff.numerator /
    c.consensusConfig.slotActivationCoeff.denominator) (2 ^ 64 - 1)

def claimRateDenominator (c : Config) : Nat :=
  c.powConfig.reward.claimRateScale * c.expectedBlocksPerEpoch

/-- The slots of an epoch before its last phase. -/
def nonceContributionPeriod (c : Config) : Nat :=
  c.consensusConfig.basePeriodLength *
    (c.epochConfig.epochPeriodNonceBuffer + c.epochConfig.epochStakeDistributionStabilization)

def totalStakeInferencePeriod (c : Config) : Nat := c.nonceContributionPeriod

/-- When an epoch takes the snapshot for the next epoch. -/
def nextEpochSnapshot (c : Config) (firstSlot : Nat) : Nat := firstSlot + c.nonceContributionPeriod

end Config

theorem Config.epochLength_pos (c : Config) : 0 < c.epochLength := by
  have hphase := c.epochConfig.epochStakeDistributionStabilization_pos
  have hbase := c.consensusConfig.basePeriodLength_pos
  unfold Config.epochLength EpochConfig.epochLength saturatingMul saturatingAdd
  have hsum : 0 < min (min (c.epochConfig.epochStakeDistributionStabilization +
      c.epochConfig.epochPeriodNonceBuffer) (2 ^ 64 - 1) +
      c.epochConfig.epochPeriodNonceStabilization) (2 ^ 64 - 1) := by omega
  have := Nat.mul_pos hsum hbase
  omega

instance : EpochLength Config := ⟨Config.epochLength, Config.epochLength_pos⟩

/-- Epochs of ten slots and a gas of one for every operation. -/
def Config.small : Config where
  epochConfig := ⟨2, 4, 4, Nat.two_pos⟩
  consensusConfig :=
    { securityParam := 2
      sGen := 1
      uncleReferenceWindowInSlot := 4
      maxUncles := 2
      securityParam_pos := Nat.two_pos
      sGen_pos := Nat.one_pos
      slotActivationCoeff := ⟨1, 2, Nat.two_pos⟩
      basePeriodLength := 1
      learningRateWithPrecision := 1000
      slotActivationCoeffWithPrecision := 500
      lotteryConstants := ⟨1, 1⟩
      basePeriodLength_pos := Nat.one_pos }
  maxTransactions := 8
  maxTransactionsSize := 100
  maxOpDataSize := 10
  sdpConfig := ⟨(∅ : Map _ _).insert .blendNetwork ⟨2, 0, by decide⟩, ⟨1, 1, 1, 1, 1, 1, 1⟩, ⟨1, 0⟩⟩
  powConfig := ⟨⟨1, 1, 2, 1, 0, Nat.one_pos⟩,
    ⟨1, 1, 2, 1, 1, 1, 1, 1, 2, 4, Nat.one_lt_two, Nat.one_pos, Nat.one_pos, Nat.two_pos,
      Nat.one_lt_two.le⟩⟩
  acceptedForkDigests := [0]
  executionMarket := ⟨100, .half, .half, by decide⟩
  storageMarket := ⟨.half, .half⟩
  blockRewards := ⟨0, 2, 0, ⟨1, 2, Nat.two_pos⟩, .half, Nat.two_pos, by decide⟩
  gasProfile := ⟨1, 1, 1, 1, 1, 1, 1, 1, 1, 1, 1⟩

/-- The parameters of all eras. -/
abbrev EraScheduledConfig := EraSchedule Config

/-- The parameters of the era of a slot. -/
def configForSlot (eras : EraScheduledConfig) (slot : Nat) : Config := (eras.atSlot slot).parameters

/-- The parameters of the era of an epoch. -/
def configForEpoch (eras : EraScheduledConfig) (epoch : Nat) : Config :=
  (eras.atEpoch epoch).parameters

/-- The window of the claims of puzzles of each era. -/
def powSlotWindows (eras : EraScheduledConfig) : EraSchedule Nat :=
  eras.map (·.powConfig.reward.slotWindow)

/-- The parameters of the engine of each era. -/
def engineSchedule (eras : EraScheduledConfig) : EraSchedule Engine.Config :=
  eras.map (·.consensusConfig.toConfig)

/-- When the nonce of an epoch after genesis is fixed. -/
def nonceSnapshot (eras : EraScheduledConfig) (nonGenesisEpoch : Nat) : Nat :=
  (configForEpoch eras (nonGenesisEpoch - 1)).nextEpochSnapshot
    (eras.startingSlotForEpoch (nonGenesisEpoch - 1))

/-- When the stake of an epoch after genesis is fixed. -/
def stakeDistributionSnapshot (eras : EraScheduledConfig) (nonGenesisEpoch : Nat) : Nat :=
  eras.startingSlotForEpoch (nonGenesisEpoch - 1)

end Logos.Ledger
