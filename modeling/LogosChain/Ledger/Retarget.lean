import LogosChain.Ledger.Pow

/-!
# The difficulty of the reward puzzles (`ledger/src/mantle/pow/difficulty.rs`, `ledger/src/config.rs`)

After each block the target moves with the number of claims in the block, between a floor and the
target of genesis (`Controlled`). It never eases in one configuration, where the demand of an empty
block is rounded up to that of a block on target.
-/

namespace Logos.Ledger

open Base Mantle

/-! ## Loading a configuration -/

/-- Why a configuration is not loaded. -/
inductive RewardPoWConfigError where
  | emaSmoothingFactorNotBelowPrecision (factor precision : Nat)
  | claimRateScaleOverflow (rateDen targetClaimPerBlock : Nat)
  | powShareExceedsDenominator (powShare shareDen : Nat)
  | targetCapNotAboveFloor (minimumDifficulty floor : Nat)
deriving DecidableEq, Repr

/-- `RewardPoWConfigFields`: what is read, before it is checked. -/
structure RewardPoWConfigFields where
  minimumDifficulty : Nat
  emaSmoothingFactor : Nat
  emaSmoothingPrecision : Nat
  targetClaimsPerBlock : Nat
  rateNum : Nat
  rateDen : Nat
  targetClaimPerBlock : Nat
  powShare : Nat
  shareDen : Nat
  slotWindow : Nat
  rateDen_pos : 0 < rateDen
  targetClaimPerBlock_pos : 0 < targetClaimPerBlock
  shareDen_pos : 0 < shareDen
deriving Repr

namespace RewardPoWConfigFields

def checkedRewardTargetFloor (f : RewardPoWConfigFields) : Except RewardPoWConfigError Nat := do
  let weight ← okOr ((checkedSub f.emaSmoothingPrecision f.emaSmoothingFactor).filter (0 < ·))
    (.emaSmoothingFactorNotBelowPrecision f.emaSmoothingFactor f.emaSmoothingPrecision)
  return max (divCeil f.emaSmoothingFactor weight) 1

def checkedClaimRateScale (f : RewardPoWConfigFields) : Except RewardPoWConfigError Nat :=
  okOr (checkedMul 64 f.rateDen f.targetClaimPerBlock)
    (.claimRateScaleOverflow f.rateDen f.targetClaimPerBlock)

/-- The checks of a configuration. -/
def validate (f : RewardPoWConfigFields) : Except RewardPoWConfigError Unit := do
  failIf (f.emaSmoothingPrecision ≤ f.emaSmoothingFactor)
    (.emaSmoothingFactorNotBelowPrecision f.emaSmoothingFactor f.emaSmoothingPrecision)
  failIf (f.shareDen < f.powShare) (.powShareExceedsDenominator f.powShare f.shareDen)
  let floor ← f.checkedRewardTargetFloor
  failIf (frModulus / 2 ^ f.minimumDifficulty ≤ floor)
    (.targetCapNotAboveFloor f.minimumDifficulty floor)
  let _ ← f.checkedClaimRateScale

variable {f : RewardPoWConfigFields}

theorem checkedRewardTargetFloor_ok {floor : Nat} (h : f.checkedRewardTargetFloor = .ok floor) :
    floor = max (divCeil f.emaSmoothingFactor
      (f.emaSmoothingPrecision - f.emaSmoothingFactor)) 1 := by
  obtain ⟨weight, h1, h2⟩ := bind_ok h
  cases h2
  grind [checkedSub_eq_some, Option.filter_eq_some_iff, okOr_ok]

theorem validate_ok (h : f.validate = .ok ()) :
    f.emaSmoothingFactor < f.emaSmoothingPrecision ∧ f.powShare ≤ f.shareDen ∧
      max (divCeil f.emaSmoothingFactor (f.emaSmoothingPrecision - f.emaSmoothingFactor)) 1 <
        frModulus / 2 ^ f.minimumDifficulty := by
  obtain ⟨_, h1, h⟩ := bind_ok h
  obtain ⟨_, h2, h⟩ := bind_ok h
  obtain ⟨floor, h3, h⟩ := bind_ok h
  obtain ⟨_, h4, -⟩ := bind_ok h
  grind [checkedRewardTargetFloor_ok, failIf_ok]

end RewardPoWConfigFields

namespace RewardPoWConfig

/-- A configuration, from fields that are valid. -/
def tryFrom (f : RewardPoWConfigFields) : Except RewardPoWConfigError RewardPoWConfig :=
  match h : f.validate with
  | .error e => .error e
  | .ok () => .ok {
      minimumDifficulty := f.minimumDifficulty
      emaSmoothingFactor := f.emaSmoothingFactor
      emaSmoothingPrecision := f.emaSmoothingPrecision
      targetClaimsPerBlock := f.targetClaimsPerBlock
      rateNum := f.rateNum
      rateDen := f.rateDen
      targetClaimPerBlock := f.targetClaimPerBlock
      powShare := f.powShare
      shareDen := f.shareDen
      slotWindow := f.slotWindow
      emaSmoothingFactor_lt := (RewardPoWConfigFields.validate_ok h).1
      rateDen_pos := f.rateDen_pos
      targetClaimPerBlock_pos := f.targetClaimPerBlock_pos
      shareDen_pos := f.shareDen_pos
      powShare_le := (RewardPoWConfigFields.validate_ok h).2.1 }

variable {c : RewardPoWConfig} {current : Fr}

theorem rewardTargetFloor_lt_of_tryFrom {f : RewardPoWConfigFields} (h : tryFrom f = .ok c) :
    c.rewardTargetFloor < c.genesisTarget := by
  unfold tryFrom at h
  split at h
  · cases h
  · next hvalid =>
    cases h
    exact (RewardPoWConfigFields.validate_ok hvalid).2.2

/-! ## The controller -/

/-- What the target does from a value on. -/
structure Controlled (c : RewardPoWConfig) (current : Fr) : Prop where
  bounds : ∀ claims, c.rewardTargetFloor ≤ computeNewRewardDifficulty claims current c ∧
    computeNewRewardDifficulty claims current c ≤ c.genesisTarget
  hardens : ∀ claims more, claims ≤ more →
    computeNewRewardDifficulty more current c ≤ computeNewRewardDifficulty claims current c
  onTarget : computeNewRewardDifficulty c.targetClaimsPerBlock current c = current
  eases : current < c.genesisTarget → current < computeNewRewardDifficulty 0 current c
  recovers : ∃ blocks, (computeNewRewardDifficulty 0 · c)^[blocks] current = c.genesisTarget

/-- Without smoothing an empty block counts as one on target. -/
def NeverEases (c : RewardPoWConfig) : Prop :=
  c.emaSmoothingFactor = 0 ∧ c.emaSmoothingPrecision = 1 ∧ c.targetClaimsPerBlock = 1

theorem computeNewRewardDifficulty_bounds (h : c.rewardTargetFloor ≤ c.genesisTarget) (claims : Nat)
    (current : Fr) :
    c.rewardTargetFloor ≤ computeNewRewardDifficulty claims current c ∧
      computeNewRewardDifficulty claims current c ≤ c.genesisTarget :=
  ⟨le_min (le_max_right _ _) h, min_le_right _ _⟩

theorem computeNewRewardDifficulty_le (current : Fr) {claims more : Nat} (h : claims ≤ more) :
    computeNewRewardDifficulty more current c ≤ computeNewRewardDifficulty claims current c := by
  unfold computeNewRewardDifficulty
  grind [max_le_max_right, Nat.div_le_div_left, Nat.mul_le_mul_left]

theorem computeNewRewardDifficulty_onTarget (hT : 1 ≤ c.targetClaimsPerBlock)
    (hlow : c.rewardTargetFloor ≤ current) (hhigh : current ≤ c.genesisTarget) :
    computeNewRewardDifficulty c.targetClaimsPerBlock current c = current := by
  have hlt := c.emaSmoothingFactor_lt
  have hdemand : (c.emaSmoothingPrecision - c.emaSmoothingFactor) * c.targetClaimsPerBlock +
      c.emaSmoothingFactor * c.targetClaimsPerBlock =
        c.targetClaimsPerBlock * c.emaSmoothingPrecision := by
    rw [← Nat.add_mul, Nat.sub_add_cancel hlt.le, Nat.mul_comm]
  grind [Nat.mul_pos, computeNewRewardDifficulty, Nat.mul_left_comm, Nat.mul_div_cancel]

/-- The floor is large enough for one step of a period to show after rounding down. -/
theorem factor_le_of_floor_le (hlow : c.rewardTargetFloor ≤ current) :
    c.emaSmoothingFactor ≤ current * (c.emaSmoothingPrecision - c.emaSmoothingFactor) := by
  have hlt := c.emaSmoothingFactor_lt
  have hceil : divCeil c.emaSmoothingFactor (c.emaSmoothingPrecision - c.emaSmoothingFactor) ≤
      current := (le_max_left _ _).trans hlow
  grind [divCeil, Nat.div_le_iff_le_mul_add_pred]

/-- An empty block eases the target, before it is clamped. -/
theorem lt_eased (hT : 1 ≤ c.targetClaimsPerBlock) (hnot : ¬ c.NeverEases)
    (hlow : c.rewardTargetFloor ≤ current) :
    current < c.targetClaimsPerBlock * (current * c.emaSmoothingPrecision) /
      max (c.emaSmoothingFactor * c.targetClaimsPerBlock) 1 := by
  have hlt := c.emaSmoothingFactor_lt
  have hcurrent : 1 ≤ current := (le_max_right _ _).trans hlow
  rcases Nat.eq_zero_or_pos c.emaSmoothingFactor with hzero | hpos
  · -- The demand is one, and the target grows by the other two factors.
    have hfactors : 1 < c.targetClaimsPerBlock * c.emaSmoothingPrecision := by
      refine Nat.lt_of_le_of_ne (Nat.mul_pos hT (Nat.zero_lt_of_lt hlt)) fun hone => ?_
      exact hnot ⟨hzero, Nat.eq_one_of_mul_eq_one_left hone.symm,
        Nat.eq_one_of_mul_eq_one_right hone.symm⟩
    rw [hzero, Nat.zero_mul, max_eq_right (Nat.zero_le 1), Nat.div_one, Nat.mul_left_comm]
    exact (Nat.lt_mul_iff_one_lt_right hcurrent).mpr hfactors
  · have hstep := factor_le_of_floor_le hlow
    have hsplit : current * c.emaSmoothingPrecision = current * c.emaSmoothingFactor +
        current * (c.emaSmoothingPrecision - c.emaSmoothingFactor) := by
      rw [← Nat.mul_add, Nat.add_sub_cancel' hlt.le]
    rw [max_eq_left (Nat.mul_pos hpos hT), Nat.mul_comm c.emaSmoothingFactor,
      Nat.mul_div_mul_left _ _ hT, Nat.lt_iff_add_one_le, Nat.le_div_iff_mul_le hpos,
      Nat.add_mul, Nat.one_mul, hsplit]
    exact Nat.add_le_add_left hstep _

theorem computeNewRewardDifficulty_empty (c : RewardPoWConfig) (current : Fr) :
    computeNewRewardDifficulty 0 current c =
      min (max (c.targetClaimsPerBlock * (current * c.emaSmoothingPrecision) /
        max (c.emaSmoothingFactor * c.targetClaimsPerBlock) 1) c.rewardTargetFloor)
        c.genesisTarget := by grind [computeNewRewardDifficulty]

theorem lt_computeNewRewardDifficulty_empty (hT : 1 ≤ c.targetClaimsPerBlock)
    (hnot : ¬ c.NeverEases) (hlow : c.rewardTargetFloor ≤ current)
    (hhigh : current < c.genesisTarget) : current < computeNewRewardDifficulty 0 current c := by
  rw [computeNewRewardDifficulty_empty]
  exact lt_min (lt_max_of_lt_left (lt_eased hT hnot hlow)) hhigh

/-- Empty blocks ease the target until it is the target of genesis. -/
theorem exists_iterate_eq_genesisTarget (hT : 1 ≤ c.targetClaimsPerBlock) (hnot : ¬ c.NeverEases)
    (hle : c.rewardTargetFloor ≤ c.genesisTarget) (hlow : c.rewardTargetFloor ≤ current)
    (hhigh : current ≤ c.genesisTarget) :
    ∃ blocks, (computeNewRewardDifficulty 0 · c)^[blocks] current = c.genesisTarget := by
  -- Each block brings the target closer.
  induction hgap : c.genesisTarget - current using Nat.strong_induction_on generalizing current with
  | _ gap ih =>
    rcases Nat.eq_or_lt_of_le hhigh with heq | hlt
    · exact ⟨0, heq⟩
    · have hmore := lt_computeNewRewardDifficulty_empty hT hnot hlow hlt
      obtain ⟨hlow', hhigh'⟩ := computeNewRewardDifficulty_bounds hle 0 current
      have hcloser : c.genesisTarget - computeNewRewardDifficulty 0 current c < gap :=
        hgap ▸ Nat.sub_lt_sub_left hlt hmore
      obtain ⟨blocks, hblocks⟩ := ih _ hcloser hlow' hhigh' rfl
      exact ⟨blocks + 1, hblocks⟩

/-- The configuration that never eases keeps every target after an empty block. -/
theorem NeverEases.empty_eq (h : c.NeverEases) (hlow : c.rewardTargetFloor ≤ current)
    (hhigh : current ≤ c.genesisTarget) : computeNewRewardDifficulty 0 current c = current := by
  obtain ⟨hfactor, hprecision, hclaims⟩ := h
  grind [computeNewRewardDifficulty_empty]

/-- The target is controlled from every value between the bounds, unless it never eases and is not
yet that of genesis. -/
theorem reward_target_controlled_iff {f : RewardPoWConfigFields} (hc : tryFrom f = .ok c)
    (hT : 1 ≤ c.targetClaimsPerBlock) (hlow : c.rewardTargetFloor ≤ current)
    (hhigh : current ≤ c.genesisTarget) :
    c.Controlled current ↔ ¬ c.NeverEases ∨ current = c.genesisTarget := by
  have hle := (rewardTargetFloor_lt_of_tryFrom hc).le
  constructor
  · intro h
    by_contra hnot
    obtain ⟨hnever, hne⟩ := not_or.mp hnot
    have heases := h.eases (Nat.lt_of_le_of_ne hhigh hne)
    grind [NeverEases.empty_eq]
  · intro h
    refine ⟨fun claims => computeNewRewardDifficulty_bounds hle claims current,
      fun claims more hmore => computeNewRewardDifficulty_le current hmore,
      computeNewRewardDifficulty_onTarget hT hlow hhigh, fun hlt => ?_, ?_⟩
    · grind [lt_computeNewRewardDifficulty_empty]
    · rcases h with hnot | heq
      · exact exists_iterate_eq_genesisTarget hT hnot hle hlow hhigh
      · exact ⟨0, heq⟩

/-- Fields with a smoothing factor, a precision and a claim target. -/
def fieldsOf (factor precision claims : Nat) : RewardPoWConfigFields :=
  ⟨32, factor, precision, claims, 1, 1, 1, 0, 1, 100, Nat.one_pos, Nat.one_pos, Nat.one_pos⟩

theorem reward_target_controlled_nine_tenths :
    ∃ c, tryFrom (fieldsOf 9 10 10) = .ok c ∧ c.rewardTargetFloor = 9 ∧ c.Controlled 9 := by
  obtain ⟨c, hc, hclaims, hprecision, hfloor, hgenesis⟩ :=
    exists_ok (x := tryFrom (fieldsOf 9 10 10))
      (fun c => c.targetClaimsPerBlock = 10 ∧ c.emaSmoothingPrecision = 10 ∧
        c.rewardTargetFloor = 9 ∧ 9 ≤ c.genesisTarget) (by decide +kernel)
  refine ⟨c, hc, hfloor, (reward_target_controlled_iff hc ?_ hfloor.le hgenesis).mpr (.inl ?_)⟩
  · rw [hclaims]
    decide
  · rintro ⟨-, hone, -⟩
    rw [hprecision] at hone
    cases hone

/-- Two claims halve a target of a thousand, and no number of empty blocks brings it back. -/
theorem reward_target_never_eases :
    ∃ c, tryFrom (fieldsOf 0 1 1) = .ok c ∧ c.rewardTargetFloor ≤ 500 ∧ 500 < c.genesisTarget ∧
      computeNewRewardDifficulty 2 1000 c = 500 ∧ computeNewRewardDifficulty 0 500 c = 500 ∧
      ¬ c.Controlled 500 := by
  obtain ⟨c, hc, hfloor, hgenesis, htwo, hzero⟩ := exists_ok (x := tryFrom (fieldsOf 0 1 1))
    (fun c => c.rewardTargetFloor ≤ 500 ∧ 500 < c.genesisTarget ∧
      computeNewRewardDifficulty 2 1000 c = 500 ∧ computeNewRewardDifficulty 0 500 c = 500)
    (by decide +kernel)
  grind [Controlled.eases]

end RewardPoWConfig

end Logos.Ledger
