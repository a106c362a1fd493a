import LogosChain.Ledger.Pow
import Mathlib.Analysis.SpecialFunctions.Pow.NthRootLemmas

/-!
# The retarget of the Blend network (`ledger/src/mantle/pow/blend_difficulty.rs`)

The target of an epoch aims at the base target divided by a power of the load below one, rounded
down, and moves at most by a factor from the target before it. Both roundings are monotone.
-/

namespace Logos.Ledger

open Base Mantle

namespace BlendPoWConfig

/-- `ModulusShift` is at least one, the others are `NonZero`. -/
structure Typed (c : BlendPoWConfig) : Prop where
  baseDifficulty_pos : 1 ≤ c.baseDifficulty
  targetTransactionsPerBlock_pos : 0 < c.targetTransactionsPerBlock
  maxStep_pos : 0 < c.maxStep

/-- `damping_exponent` with the `strict_add` on words of 32 bits. -/
def strictDampingExponent (c : BlendPoWConfig) : Option (Nat × Nat) :=
  (checkedAdd 32 c.dampingNum c.dampingDenOffset).map (c.dampingNum, ·)

/-- With that panic: the exponent is read only if there are transactions. -/
def retarget (c : BlendPoWConfig) (load : EpochTotals) (previous : Fr) : Option Fr :=
  if load.txs = 0 then some (computeEpochBlendDifficulty load previous c)
  else c.strictDampingExponent.map fun _ => computeEpochBlendDifficulty load previous c

/-- The target before it is clamped. -/
def aim (c : BlendPoWConfig) (load : EpochTotals) : Nat :=
  Nat.nthRoot (c.dampingNum + c.dampingDenOffset) (c.baseTarget ^ (c.dampingNum + c.dampingDenOffset) *
    (c.targetTransactionsPerBlock * load.blocks) ^ c.dampingNum / load.txs ^ c.dampingNum)

variable {c : BlendPoWConfig} {load load' : EpochTotals} {previous previous' r r' : Fr}

theorem compute_eq (c : BlendPoWConfig) (load : EpochTotals) (previous : Fr) :
    computeEpochBlendDifficulty load previous c =
      if load.txs = 0 then min (previous * c.maxStep) (frModulus - 1)
      else min (min (max (c.aim load) (previous / c.maxStep)) (previous * c.maxStep))
        (frModulus - 1) := rfl

theorem isSome_retarget : (c.retarget load previous).isSome ↔
    load.txs = 0 ∨ c.dampingNum + c.dampingDenOffset < 2 ^ 32 := by
  unfold retarget strictDampingExponent checkedAdd
  grind

theorem retarget_eq (h : c.retarget load previous = some r) :
    r = computeEpochBlendDifficulty load previous c := by
  unfold retarget at h
  grind [Option.map_eq_some_iff]

/-- Dividing by a larger power of the load and taking the root are both monotone. -/
theorem aim_le_aim (htxs : load'.txs ≤ load.txs) (hpos : 0 < load'.txs)
    (hblocks : load.blocks ≤ load'.blocks) : c.aim load ≤ c.aim load' := by
  have hdamping := c.dampingNum_pos
  rw [aim, aim, Nat.le_nthRoot_iff (by omega)]
  refine (Nat.pow_nthRoot_le_iff.mpr (.inl (by omega))).trans ?_
  exact Nat.div_le_div (Nat.mul_le_mul_left _ (Nat.pow_le_pow_left (Nat.mul_le_mul_left _ hblocks) _))
    (Nat.pow_le_pow_left htxs _) (pow_pos hpos _).ne'

/-- At the reference load the quotient is exact, and so is the root. -/
theorem aim_reference (hpos : 0 < load.txs)
    (href : load.txs = c.targetTransactionsPerBlock * load.blocks) : c.aim load = c.baseTarget := by
  have hdamping := c.dampingNum_pos
  rw [aim, ← href, Nat.mul_div_cancel _ (pow_pos hpos _), Nat.nthRoot_pow (by omega)]

theorem le_compute (hc : c.Typed) (hprevious : previous < frModulus) :
    previous / c.maxStep ≤ computeEpochBlendDifficulty load previous c := by
  have hstep : previous / c.maxStep ≤ previous * c.maxStep :=
    (Nat.div_le_self _ _).trans (Nat.le_mul_of_pos_right _ hc.maxStep_pos)
  have hfield : previous / c.maxStep ≤ frModulus - 1 :=
    (Nat.div_le_self _ _).trans (Nat.le_sub_one_of_lt hprevious)
  rw [compute_eq]
  split
  · exact le_min hstep hfield
  · exact le_min (le_min (le_max_right _ _) hstep) hfield

theorem compute_le :
    computeEpochBlendDifficulty load previous c ≤ min (previous * c.maxStep) (frModulus - 1) := by
  rw [compute_eq]
  split
  · exact le_rfl
  · exact min_le_min_right _ (min_le_right _ _)

theorem compute_le_compute (htxs : load'.txs ≤ load.txs) (hblocks : load.blocks ≤ load'.blocks)
    (hprevious : previous ≤ previous') : computeEpochBlendDifficulty load previous c ≤
      computeEpochBlendDifficulty load' previous' c := by
  have hhigh : previous * c.maxStep ≤ previous' * c.maxStep := Nat.mul_le_mul_right _ hprevious
  rw [compute_eq c load']
  split
  · -- an epoch without transactions gets the upper end of the clamp
    exact compute_le.trans (min_le_min_right _ hhigh)
  · rename_i htxs'
    rw [compute_eq, if_neg (by omega)]
    exact min_le_min_right _ (min_le_min (max_le_max
      (aim_le_aim htxs (Nat.pos_of_ne_zero htxs') hblocks) (Nat.div_le_div_right hprevious)) hhigh)

theorem compute_reference (hc : c.Typed) (hblocks : 0 < load.blocks)
    (href : load.txs = c.targetTransactionsPerBlock * load.blocks)
    (hlow : previous / c.maxStep ≤ c.baseTarget) (hhigh : c.baseTarget ≤ previous * c.maxStep) :
    computeEpochBlendDifficulty load previous c = c.baseTarget := by
  have hpos : 0 < load.txs := href ▸ Nat.mul_pos hc.targetTransactionsPerBlock_pos hblocks
  have hfield : c.baseTarget ≤ frModulus - 1 := by
    refine Nat.le_sub_one_of_lt (Nat.div_lt_self (by decide) ?_)
    exact Nat.one_lt_two_pow (by have := hc.baseDifficulty_pos; omega)
  rw [compute_eq, if_neg hpos.ne', aim_reference hpos href, max_eq_left hlow, min_eq_left hhigh,
    min_eq_left hfield]

/-- The target is within the clamp and the field, is monotone in the load and in the target before,
and is the base target at the reference load if the clamp allows it. -/
theorem blend_retarget (c : BlendPoWConfig) (hc : c.Typed) (load : EpochTotals) (previous : Fr)
    (hprevious : previous < frModulus) :
    ((c.retarget load previous).isSome ↔
      load.txs = 0 ∨ c.dampingNum + c.dampingDenOffset < 2 ^ 32) ∧
    ∀ r, c.retarget load previous = some r →
      previous / c.maxStep ≤ r ∧ r ≤ min (previous * c.maxStep) (frModulus - 1) ∧
      (∀ (load' : EpochTotals) (previous' r' : Fr), load'.txs ≤ load.txs →
        load.blocks ≤ load'.blocks → previous ≤ previous' →
        c.retarget load' previous' = some r' → r ≤ r') ∧
      (0 < load.blocks → load.txs = c.targetTransactionsPerBlock * load.blocks →
        previous / c.maxStep ≤ c.baseTarget → c.baseTarget ≤ previous * c.maxStep →
        r = c.baseTarget) := by
  refine ⟨isSome_retarget, fun r hr => ?_⟩
  rw [retarget_eq hr]
  refine ⟨le_compute hc hprevious, compute_le, fun load' previous' r' htxs hblocks hle hr' => ?_,
    compute_reference hc⟩
  rw [retarget_eq hr']
  exact compute_le_compute htxs hblocks hle

theorem blend_retarget_fourfold :
    let c : BlendPoWConfig := ⟨234, 10, 2, 1, 1, Nat.one_pos⟩
    ∃ r, c.retarget ⟨7, 280⟩ c.baseTarget = some r ∧ c.baseTarget / 2 ≤ r ∧
      r ≤ min (c.baseTarget * 2) (frModulus - 1) := by
  intro c
  have hc : c.Typed := ⟨by decide, by decide, by decide⟩
  obtain ⟨hsome, hspec⟩ := blend_retarget c hc ⟨7, 280⟩ c.baseTarget (by decide)
  obtain ⟨r, hr⟩ := Option.isSome_iff_exists.mp (hsome.mpr (.inr (by decide)))
  exact ⟨r, hr, (hspec r hr).1, (hspec r hr).2.1⟩

end BlendPoWConfig

end Logos.Ledger
