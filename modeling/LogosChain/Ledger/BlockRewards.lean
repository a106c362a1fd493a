import LogosChain.Ledger.Config
import Mathlib.Algebra.Order.Floor.Semifield
import Mathlib.Data.Rat.Floor

/-!
# The arithmetic of block rewards (`ledger/src/config.rs`)

The reward of a block mixes the emission of a block in full and the fee of the block, by a weight
that is clamped to a scale. `rewardsChecked` computes it with every step in a word of 128 bits, as
the code does.
-/

namespace Logos.Ledger

open Base Mantle

namespace BlockRewardsConfig

/-! ## The code -/

/-- The block rewards, unless a reward could leave its word. -/
def new (stakeTarget emissionFactorScale feeAverageNumerator : Nat)
    (maxEmissionPerBlock : NonNegativeRatio) (blendShare : ProperFraction)
    (emissionFactorScale_pos : 0 < emissionFactorScale) : Option BlockRewardsConfig :=
  match h : (checkedMul 128 maxEmissionPerBlock.denominator emissionFactorScale).bind
      fun bound => checkedMul 128 bound blendShare.denominator with
  | none => none
  | some bound =>
    if hbound : bound ≤ (2 ^ 128 - 1) / (2 ^ 64 - 1) then
      some {
        stakeTarget := stakeTarget
        emissionFactorScale := emissionFactorScale
        feeAverageNumerator := feeAverageNumerator
        maxEmissionPerBlock := maxEmissionPerBlock
        blendShare := blendShare
        emissionFactorScale_pos := emissionFactorScale_pos
        bounded := by
          obtain ⟨first, h1, h2⟩ := Option.bind_eq_some_iff.mp h
          simp_all }
    else none

theorem new_self (c : BlockRewardsConfig) :
    new c.stakeTarget c.emissionFactorScale c.feeAverageNumerator c.maxEmissionPerBlock
      c.blendShare c.emissionFactorScale_pos = some c := by
  have hbounded := c.bounded
  have hlt : (2 ^ 128 - 1) / (2 ^ 64 - 1) < 2 ^ 128 := by decide
  have hfirst : checkedMul 128 c.maxEmissionPerBlock.denominator c.emissionFactorScale =
      some (c.maxEmissionPerBlock.denominator * c.emissionFactorScale) :=
    checkedMul_eq_some.mpr ⟨rfl, (Nat.le_mul_of_pos_right _
      c.blendShare.denominator_pos).trans_lt (hbounded.trans_lt hlt)⟩
  have hbound : (checkedMul 128 c.maxEmissionPerBlock.denominator c.emissionFactorScale).bind
      (fun bound => checkedMul 128 bound c.blendShare.denominator) =
      some (c.maxEmissionPerBlock.denominator * c.emissionFactorScale *
        c.blendShare.denominator) := by grind [checkedMul_eq_some]
  unfold new
  split
  · rename_i h
    rw [hbound] at h
    cases h
  · simp_all

/-- The weight of the emission, out of the scale. -/
def emissionWeight (c : BlockRewardsConfig) (pooledFees totalStake : Nat) : Nat :=
  min (saturatingAdd 128 c.stakeTarget (saturatingMul 128 c.feeAverageNumerator pooledFees) -
    totalStake) c.emissionFactorScale

/-- A share of a reward; none if it does not fit its word. -/
def share (rewardNumerator denominator numerator : Nat) : Option Nat := do
  let product ← checkedMul 128 rewardNumerator numerator
  let value ← checkedDiv product denominator
  if value < 2 ^ 64 then some value else none

/-- `rewards`, with every step in its word; none if one overflows. -/
def rewardsChecked (c : BlockRewardsConfig) (pooledFees blockFee totalStake : Nat) :
    Option (Nat × Nat) := do
  let emissionWeight := c.emissionWeight pooledFees totalStake
  let emission ← checkedMul 128 c.maxEmissionPerBlock.numerator emissionWeight
  let feeWeight ← checkedSub c.emissionFactorScale emissionWeight
  let fees ← checkedMul 128 c.maxEmissionPerBlock.denominator feeWeight
  let fees ← checkedMul 128 fees blockFee
  let rewardNumerator ← checkedAdd 128 emission fees
  let denominator := saturatingMul 128
    (saturatingMul 128 c.maxEmissionPerBlock.denominator c.emissionFactorScale)
    c.blendShare.denominator
  let blend ← share rewardNumerator denominator c.blendShare.numerator
  let leaderNumerator ← checkedSub c.blendShare.denominator c.blendShare.numerator
  let leader ← share rewardNumerator denominator leaderNumerator
  return (blend, leader)

/-- The values of a configuration fit their words. -/
structure Typed (c : BlockRewardsConfig) : Prop where
  stakeTarget : c.stakeTarget < 2 ^ 64
  emissionFactorScale : c.emissionFactorScale < 2 ^ 64
  feeAverageNumerator : c.feeAverageNumerator < 2 ^ 64
  emissionNumerator : c.maxEmissionPerBlock.numerator < 2 ^ 32
  emissionDenominator : c.maxEmissionPerBlock.denominator < 2 ^ 32
  shareDenominator : c.blendShare.denominator < 2 ^ 32

/-! ## The reward as a fraction -/

/-- The weight of the emission as a part of one. -/
def exactWeight (c : BlockRewardsConfig) (pooledFees totalStake : Nat) : ℚ :=
  max 0 (min ((c.stakeTarget : ℚ) + c.feeAverageNumerator * pooledFees - totalStake)
    c.emissionFactorScale) / c.emissionFactorScale

/-- The emission of a block in full. -/
def maxEmission (c : BlockRewardsConfig) : ℚ :=
  c.maxEmissionPerBlock.numerator / c.maxEmissionPerBlock.denominator

def blendPart (c : BlockRewardsConfig) : ℚ := c.blendShare.numerator / c.blendShare.denominator

/-- The reward of a block as a fraction. -/
def exactReward (c : BlockRewardsConfig) (pooledFees blockFee totalStake : Nat) : ℚ :=
  c.exactWeight pooledFees totalStake * c.maxEmission +
    (1 - c.exactWeight pooledFees totalStake) * blockFee

variable {c : BlockRewardsConfig} {pooledFees blockFee totalStake : Nat}

theorem emissionWeight_le (c : BlockRewardsConfig) (pooledFees totalStake : Nat) :
    c.emissionWeight pooledFees totalStake ≤ c.emissionFactorScale := min_le_right _ _

/-- The words saturate only where the weight is clamped anyway. -/
theorem emissionWeight_eq (hc : c.Typed) (hs : totalStake < 2 ^ 64) :
    c.emissionWeight pooledFees totalStake =
      min (c.stakeTarget + c.feeAverageNumerator * pooledFees - totalStake)
        c.emissionFactorScale := by
  have hscale := hc.emissionFactorScale
  unfold emissionWeight saturatingAdd saturatingMul
  omega

theorem exactWeight_eq (hc : c.Typed) (hs : totalStake < 2 ^ 64) :
    c.exactWeight pooledFees totalStake =
      (c.emissionWeight pooledFees totalStake : ℚ) / c.emissionFactorScale := by
  rw [exactWeight, emissionWeight_eq hc hs]
  congr 1
  rcases le_total totalStake (c.stakeTarget + c.feeAverageNumerator * pooledFees) with hle | hle
  · rw [Nat.cast_min, Nat.cast_sub hle, max_eq_right]
    · push_cast
      rfl
    · have hle' : (totalStake : ℚ) ≤ c.stakeTarget + c.feeAverageNumerator * pooledFees := by
        exact_mod_cast hle
      exact le_min (by linarith) (Nat.cast_nonneg _)
  · have hle' : (c.stakeTarget : ℚ) + c.feeAverageNumerator * pooledFees ≤ totalStake := by
      exact_mod_cast hle
    simp_all

/-- The reward, over the denominator of the emission and the scale. -/
def rewardNumerator (c : BlockRewardsConfig) (pooledFees blockFee totalStake : Nat) : Nat :=
  c.maxEmissionPerBlock.numerator * c.emissionWeight pooledFees totalStake +
    c.maxEmissionPerBlock.denominator *
      (c.emissionFactorScale - c.emissionWeight pooledFees totalStake) * blockFee

theorem exactReward_eq (hc : c.Typed) (hs : totalStake < 2 ^ 64) :
    c.exactReward pooledFees blockFee totalStake =
      (c.rewardNumerator pooledFees blockFee totalStake : ℚ) /
        (c.maxEmissionPerBlock.denominator * c.emissionFactorScale : Nat) := by
  have hden : (c.maxEmissionPerBlock.denominator : ℚ) ≠ 0 :=
    Nat.cast_ne_zero.mpr c.maxEmissionPerBlock.denominator_pos.ne'
  have hscale : (c.emissionFactorScale : ℚ) ≠ 0 :=
    Nat.cast_ne_zero.mpr c.emissionFactorScale_pos.ne'
  unfold exactReward rewardNumerator maxEmission
  grind [exactWeight_eq, Nat.cast_sub, emissionWeight_le]

/-! ## No step leaves its word -/

section Arithmetic

variable {num den scale w fee part n : Nat}

/-- The weight is between zero and the scale, so the reward is between those of the two ends. -/
theorem mix_le (hw : w ≤ scale) :
    num * w + den * (scale - w) * fee ≤ max num (den * fee) * scale := by
  calc num * w + den * (scale - w) * fee = num * w + den * fee * (scale - w) := by
        rw [Nat.mul_right_comm]
    _ ≤ max num (den * fee) * w + max num (den * fee) * (scale - w) := by
        gcongr
        · exact le_max_left _ _
        · exact le_max_right _ _
    _ = max num (den * fee) * scale := by rw [← Nat.mul_add, Nat.add_sub_cancel' hw]

variable (hden : 0 < den) (hnum : num < 2 ^ 32) (hfee : fee < 2 ^ 64) (hn : n ≤ part)
include hden hnum hfee hn

theorem mix_mul_lt (hbound : den * scale * part ≤ 2 ^ 64 + 1) (hw : w ≤ scale) :
    (num * w + den * (scale - w) * fee) * n < 2 ^ 128 := by
  refine (Nat.mul_le_mul (mix_le hw) hn).trans_lt ?_
  rcases max_choice num (den * fee) with h | h <;> rw [h]
  · have hrest : scale * part ≤ 2 ^ 64 + 1 :=
      (Nat.le_mul_of_pos_left _ hden).trans (Nat.mul_assoc den scale part ▸ hbound)
    calc num * scale * part = num * (scale * part) := Nat.mul_assoc _ _ _
      _ ≤ 2 ^ 32 * (2 ^ 64 + 1) := Nat.mul_le_mul hnum.le hrest
      _ < 2 ^ 128 := by decide
  · calc den * fee * scale * part = den * scale * part * fee := by ring
      _ ≤ (2 ^ 64 + 1) * (2 ^ 64 - 1) := Nat.mul_le_mul hbound (Nat.le_sub_one_of_lt hfee)
      _ < 2 ^ 128 := by decide

/-- A share is at most the full emission or the fee. -/
theorem mix_mul_div_lt (hw : w ≤ scale) :
    (num * w + den * (scale - w) * fee) * n / (den * scale * part) < 2 ^ 64 := by
  have hmax : max num (den * fee) ≤ den * max num fee :=
    max_le ((le_max_left _ _).trans (Nat.le_mul_of_pos_left _ hden))
      (Nat.mul_le_mul_left _ (le_max_right _ _))
  refine (Nat.div_le_of_le_mul ((Nat.mul_le_mul (mix_le hw) hn).trans ?_)).trans_lt
    (max_lt (hnum.trans (by decide)) hfee)
  calc max num (den * fee) * scale * part ≤ den * max num fee * scale * part := by gcongr
    _ = den * scale * part * max num fee := by ring

end Arithmetic

def denominator (c : BlockRewardsConfig) : Nat :=
  c.maxEmissionPerBlock.denominator * c.emissionFactorScale * c.blendShare.denominator

theorem share_eq (hc : c.Typed) (hf : blockFee < 2 ^ 64) {n : Nat}
    (hn : n ≤ c.blendShare.denominator) :
    share (c.rewardNumerator pooledFees blockFee totalStake) c.denominator n =
      some (c.rewardNumerator pooledFees blockFee totalStake * n / c.denominator) := by
  have hle := c.emissionWeight_le pooledFees totalStake
  have hden := c.maxEmissionPerBlock.denominator_pos
  have hpos : 0 < c.denominator :=
    Nat.mul_pos (Nat.mul_pos hden c.emissionFactorScale_pos) c.blendShare.denominator_pos
  have hproduct : c.rewardNumerator pooledFees blockFee totalStake * n < 2 ^ 128 :=
    mix_mul_lt hden hc.emissionNumerator hf hn c.bounded hle
  unfold share checkedDiv
  rw [checkedMul_eq_some.mpr ⟨rfl, hproduct⟩]
  simp only [Option.bind_eq_bind, Option.bind_some, if_neg hpos.ne']
  exact if_pos (mix_mul_div_lt hden hc.emissionNumerator hf hn hle)

theorem rewardsChecked_eq (hc : c.Typed) (hf : blockFee < 2 ^ 64) :
    c.rewardsChecked pooledFees blockFee totalStake =
      some (c.rewards pooledFees blockFee totalStake) := by
  have hle := c.emissionWeight_le pooledFees totalStake
  have hparts := mix_mul_lt c.maxEmissionPerBlock.denominator_pos hc.emissionNumerator hf
    (Nat.succ_le_of_lt c.blendShare.denominator_pos) c.bounded hle
  rw [Nat.mul_one] at hparts
  have hfirst := Nat.mul_lt_mul_of_le_of_lt hc.emissionDenominator.le
    ((Nat.sub_le _ (c.emissionWeight pooledFees totalStake)).trans_lt hc.emissionFactorScale)
    (by decide)
  have hscale : c.maxEmissionPerBlock.denominator * c.emissionFactorScale ≤ 2 ^ 128 - 1 := by
    have := Nat.mul_lt_mul'' hc.emissionDenominator hc.emissionFactorScale
    omega
  have hdenominator : saturatingMul 128
      (saturatingMul 128 c.maxEmissionPerBlock.denominator c.emissionFactorScale)
      c.blendShare.denominator = c.denominator := by
    unfold saturatingMul
    rw [min_eq_left hscale]
    exact min_eq_left (le_trans c.bounded (by decide))
  unfold rewardsChecked
  simp only [Option.bind_eq_bind]
  rw [checkedMul_eq_some.mpr ⟨rfl, by omega⟩, Option.bind_some,
    checkedSub_eq_some.mpr (Nat.add_sub_cancel' hle).symm, Option.bind_some,
    checkedMul_eq_some.mpr ⟨rfl, hfirst.trans (by decide)⟩, Option.bind_some,
    checkedMul_eq_some.mpr ⟨rfl, by omega⟩, Option.bind_some,
    checkedAdd_eq_some.mpr ⟨rfl, hparts⟩, Option.bind_some, hdenominator]
  change (share (c.rewardNumerator pooledFees blockFee totalStake) _ _).bind _ = _
  rw [share_eq hc hf c.blendShare.numerator_lt.le, Option.bind_some,
    checkedSub_eq_some.mpr (Nat.add_sub_cancel' c.blendShare.numerator_lt.le).symm,
    Option.bind_some]
  change (share (c.rewardNumerator pooledFees blockFee totalStake) _ _).bind _ = _
  rw [share_eq hc hf (Nat.sub_le _ _)]
  rfl

/-! ## The shares are those of the fraction -/

theorem floor_part (hc : c.Typed) (hs : totalStake < 2 ^ 64) (n : Nat) :
    ⌊c.exactReward pooledFees blockFee totalStake * ((n : ℚ) / c.blendShare.denominator)⌋₊ =
      c.rewardNumerator pooledFees blockFee totalStake * n / c.denominator := by
  rw [exactReward_eq hc hs, div_mul_div_comm, ← Nat.cast_mul, ← Nat.cast_mul, Nat.floor_div_eq_div]
  rfl

theorem div_add_div_parts (f : ProperFraction) (total : Nat) {q : Nat} (hq : 0 < q) :
    total * f.numerator / (q * f.denominator) +
        total * (f.denominator - f.numerator) / (q * f.denominator) = total / q ∨
      total * f.numerator / (q * f.denominator) +
        total * (f.denominator - f.numerator) / (q * f.denominator) + 1 = total / q := by
  have hsum : (total * f.numerator + total * (f.denominator - f.numerator)) / (q * f.denominator) =
      total / q := by
    rw [← Nat.mul_add, Nat.add_sub_cancel' f.numerator_lt.le,
      Nat.mul_div_mul_right _ _ f.denominator_pos]
  rw [Nat.add_div (Nat.mul_pos hq f.denominator_pos)] at hsum
  split at hsum
  · exact .inr hsum
  · exact .inl hsum

/-- No step leaves its word, the shares are those of the fraction rounded down, and together they
are the reward rounded down or one less. -/
theorem block_rewards_exact (hc : c.Typed) (hf : blockFee < 2 ^ 64) (hs : totalStake < 2 ^ 64) :
    ∃ blend leader, c.rewardsChecked pooledFees blockFee totalStake = some (blend, leader) ∧
      c.rewards pooledFees blockFee totalStake = (blend, leader) ∧
      blend = ⌊c.exactReward pooledFees blockFee totalStake * c.blendPart⌋₊ ∧
      leader = ⌊c.exactReward pooledFees blockFee totalStake * (1 - c.blendPart)⌋₊ ∧
      (blend + leader = ⌊c.exactReward pooledFees blockFee totalStake⌋₊ ∨
        blend + leader + 1 = ⌊c.exactReward pooledFees blockFee totalStake⌋₊) ∧
      c.exactReward pooledFees blockFee totalStake ≤ max c.maxEmission blockFee := by
  refine ⟨_, _, rewardsChecked_eq hc hf, rfl, ?_, ?_, ?_, ?_⟩
  · exact (floor_part hc hs _).symm
  · rw [show 1 - c.blendPart = _ from c.blendShare.one_sub_val]
    exact (floor_part hc hs _).symm
  · rw [exactReward_eq hc hs, Nat.floor_div_eq_div]
    exact div_add_div_parts c.blendShare _
      (Nat.mul_pos c.maxEmissionPerBlock.denominator_pos c.emissionFactorScale_pos)
  · have hden : (0 : ℚ) < c.maxEmissionPerBlock.denominator :=
      Nat.cast_pos.mpr c.maxEmissionPerBlock.denominator_pos
    have hscale : (0 : ℚ) < c.emissionFactorScale := Nat.cast_pos.mpr c.emissionFactorScale_pos
    have hle : (c.rewardNumerator pooledFees blockFee totalStake : ℚ) ≤
        max (c.maxEmissionPerBlock.numerator : ℚ)
          (c.maxEmissionPerBlock.denominator * blockFee) * c.emissionFactorScale := by
      exact_mod_cast mix_le (c.emissionWeight_le pooledFees totalStake)
    rw [exactReward_eq hc hs, Nat.cast_mul, div_le_iff₀ (mul_pos hden hscale), ← mul_assoc]
    refine hle.trans (mul_le_mul_of_nonneg_right ?_ hscale.le)
    rw [max_mul_of_nonneg _ _ hden.le, maxEmission, div_mul_cancel₀ _ hden.ne', mul_comm]

theorem block_rewards_exact_mixed :
    let c : BlockRewardsConfig := ⟨100, 4, 1, ⟨7, 2, by decide⟩, .half, by decide, by decide⟩
    c.rewards 3 7 101 = (2, 2) ∧
      ∃ blend leader, c.rewardsChecked 3 7 101 = some (blend, leader) ∧
        c.rewards 3 7 101 = (blend, leader) ∧
        blend = ⌊c.exactReward 3 7 101 * c.blendPart⌋₊ ∧
        leader = ⌊c.exactReward 3 7 101 * (1 - c.blendPart)⌋₊ ∧
        (blend + leader = ⌊c.exactReward 3 7 101⌋₊ ∨
          blend + leader + 1 = ⌊c.exactReward 3 7 101⌋₊) ∧
        c.exactReward 3 7 101 ≤ max c.maxEmission (7 : Nat) :=
  ⟨by decide, block_rewards_exact
    ⟨by decide, by decide, by decide, by decide, by decide, by decide⟩ (by decide) (by decide)⟩

end BlockRewardsConfig

end Logos.Ledger
