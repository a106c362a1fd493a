import LogosChain.Ledger.Config

/-!
# What an epoch fixes (`ledger/src/cryptarchia/{mod,stake,block_density}.rs`)

The state of an epoch, the inference of the total stake from the density of blocks, and the prices
of gas.
-/

namespace Logos.Ledger

open Base Mantle

/-- The declarations of every service (`sdp::Declarations`). -/
abbrev ServiceDeclarations := Map ServiceType Declarations

/-- What is fixed for an epoch. -/
structure EpochState where
  epoch : Nat
  nonce : Fr
  blendPowDifficulty : Fr
  utxos : Utxos
  totalStake : Nat
  lottery0 : Fr
  lottery1 : Fr
  activeDeclarations : ServiceDeclarations

/-- The root of a set of unspent notes. -/
def utxosRoot [Primitives] (utxos : Utxos) : Fr := utxos.root Primitives.compress 0 id

def precision : Nat := 1000

/-- `StakeInference`, scaled by the precision. -/
structure StakeInference where
  learningRateWithPrecision : Nat
  slotActivationCoeffWithPrecision : Nat
  period : Nat
deriving DecidableEq, Repr

/-- The inference that closes an epoch. -/
def StakeInference.afterEpoch (eras : EraScheduledConfig) (epoch : Nat) : StakeInference :=
  let measured := configForEpoch eras epoch
  let inferred := configForEpoch eras (epoch + 1)
  ⟨inferred.consensusConfig.learningRateWithPrecision,
    measured.consensusConfig.slotActivationCoeffWithPrecision, measured.totalStakeInferencePeriod⟩

/-- The total stake after a period; none on overflow or if no block is due. -/
def StakeInference.totalStakeInference (s : StakeInference) (totalStakeEstimate : Nat)
    (measuredBlockDensity : Nat) : Option Nat :=
  let estimate : Int := totalStakeEstimate * precision
  let measured : Int := measuredBlockDensity * precision
  let expected : Int := s.period * s.slotActivationCoeffWithPrecision
  let error := (wrapSigned 128 (estimate * (expected - measured))).tdiv expected
  let correction := (wrapSigned 128 (s.learningRateWithPrecision * error)).tdiv precision
  let new := (wrapSigned 128 (estimate - correction)).tdiv precision
  if expected ≠ 0 ∧ max new 1 < 2 ^ 64 then some (max new 1).toNat else none

/-- The slots of a period that blocks and uncles occupy. -/
structure BlockDensity where
  periodStart : Nat
  periodEnd : Nat
  occupiedSlots : Finset Nat
deriving DecidableEq

namespace BlockDensity

def ofEpochStartingAt (firstSlot : Nat) (config : Config) : BlockDensity :=
  let snapshot := config.nextEpochSnapshot firstSlot
  ⟨snapshot - config.totalStakeInferencePeriod, snapshot - 1, ∅⟩

/-- The density of an epoch that starts. -/
def new (epoch : Nat) (eras : EraScheduledConfig) : BlockDensity :=
  ofEpochStartingAt (eras.startingSlotForEpoch epoch) (configForEpoch eras epoch)

/-- `new` with its panic. -/
def strictNew {ε : Type} (epoch : Nat) (eras : EraScheduledConfig) : Result ε BlockDensity := do
  failIf (2 ^ 64 ≤ nonceSnapshot eras (epoch + 1)) (.panic .slotNumber)
  return .new epoch eras

def inPeriod (d : BlockDensity) (slot : Nat) : Bool := d.periodStart ≤ slot ∧ slot ≤ d.periodEnd

/-- Nothing is marked for a block outside the period. -/
def markOccupiedSlots (d : BlockDensity) (blockSlot : Nat) (uncleSlots : List Nat) : BlockDensity :=
  if d.inPeriod blockSlot then
    let uncles := (uncleSlots.filter d.inPeriod).toFinset
    { d with occupiedSlots := insert blockSlot (uncles ∪ d.occupiedSlots) }
  else d

/-- How many slots of the period have a block. -/
def currentBlockDensity (d : BlockDensity) : Nat := d.occupiedSlots.card

end BlockDensity

def genesisExecutionGasPrice : Nat := 1

def genesisStorageGasPrice : Nat := 1

/-- The price and the average of storage gas. -/
def updateStorageMarket (storageGasPrice storageGasConsumedInEpoch storageGasEma : Nat)
    (market : StorageMarketConfig) : Nat × Nat :=
  let β := market.emaSmoothingFactor
  let newEma := (β.numerator * storageGasConsumedInEpoch +
    (β.denominator - β.numerator) * storageGasEma) / β.denominator % 2 ^ 64
  if newEma = 0 then (storageGasPrice, newEma)
  else
    let α := market.maxAdjustmentFactor
    let clampDown := α.denominator - α.numerator
    let clampUp := α.denominator + α.numerator
    let comparator := α.denominator * storageGasConsumedInEpoch
    let newPrice :=
      if comparator ≤ clampDown * newEma then divCeil (storageGasPrice * clampDown) α.denominator
      else if clampUp * newEma ≤ comparator then divCeil (storageGasPrice * clampUp) α.denominator
      else divCeil (storageGasPrice * storageGasConsumedInEpoch) newEma
    (newPrice % 2 ^ 64, newEma)

/-- The average and the base fee after a block (`update_execution_market`). -/
def executionMarketAfter (averageExecutionGas executionBaseFee blockExecutionGasConsumed : Nat)
    (market : ExecutionMarketConfig) : Nat × Nat :=
  let q := market.emaSmoothingFactor
  let newAverage := ((q.denominator - q.numerator) * blockExecutionGasConsumed +
    q.numerator * averageExecutionGas) / q.denominator % 2 ^ 64
  let φ := market.feeAdjustmentRate
  let target := market.maxGasPerBlock / 2
  let feeNumerator := executionBaseFee *
    ((φ.denominator - φ.numerator) * target + φ.numerator * newAverage) % 2 ^ 128
  (newAverage, divCeil feeNumerator (φ.denominator * target) % 2 ^ 64)

end Logos.Ledger
