import LogosChain.Mantle.Errors
import LogosChain.Time.Era

/-!
# Transfers and claims (`core/src/mantle/ops/{transfer,leader_claim,pow}.rs`)

A transfer spends notes for notes. A claim of a leader and a claim of a puzzle make a note from a
pool of rewards.
-/

namespace Logos.Mantle

open Base Primitives

variable [Primitives]

/-! ## Transfer -/

namespace TransferOp

def preverify (op : TransferOp) : Except TransferError Unit := do
  op.inputs.preverify.mapError .inputs
  op.outputs.validate.mapError .outputs

/-- The inputs may be spent; their signature is left to check. -/
def verify (op : TransferOp) (proof : ZkSignature) (serviceNotes : ServiceNotes)
    (channels : Channels) (utxos : Utxos) (txHash : TxHash) :
    Except TransferError (ZkSignature × ZkSignInputs) := do
  (op.inputs.validateNotInChannel serviceNotes channels utxos).mapError .inputs
  let pks ← (op.inputs.getPk utxos).mapError .inputs
  let inputs ← okOr (publicInputsFromPks txHash pks) .invalidProof
  return (proof, inputs)

/-- What the outputs leave of the inputs, a signed word of 128 bits. -/
def balance (op : TransferOp) (utxos : Utxos) : Except TransferError Int := do
  let inputAmount ← (op.inputs.amount utxos).mapError .inputs
  let outputAmount ← op.outputs.amount.mapError .outputs
  let balance ← okOr (signedWord 128 inputAmount) .balanceOverflow
  okOr (signedWord 128 (balance - outputAmount)) .balanceOverflow

def newUtxos (op : TransferOp) : List Utxo := op.outputs.utxos (opId (.transfer op))

/-- Spends the inputs and adds the outputs. -/
def execute (op : TransferOp) (utxos : Utxos) : Except TransferError Utxos := do
  let spent ← (op.inputs.execute utxos).mapError .inputs
  return op.outputs.execute spent (opId (.transfer op))

variable {op : TransferOp} {utxos : Utxos}

theorem verify_ok {proof : ZkSignature} {serviceNotes : ServiceNotes} {channels : Channels}
    {txHash : TxHash} {p : ZkSignature × ZkSignInputs}
    (h : op.verify proof serviceNotes channels utxos txHash = .ok p) : ∀ n ∈ op.inputs.ids,
      serviceNotes.lookup n = none ∧ channels.channelNotes.lookup n = none := by
  obtain ⟨_, h1, -⟩ := bind_ok h
  exact Inputs.validateNotInChannel_ok (mapError_ok.mp h1)

theorem balance_ok {b : Int} (h : op.balance utxos = .ok b) :
    b = ((op.inputs.ids.map utxos.valueOf).sum : Nat) -
      ((op.newUtxos.map (·.note.value)).sum : Nat) := by
  obtain ⟨inputAmount, h1, h2⟩ := bind_ok h
  obtain ⟨outputAmount, h3, h4⟩ := bind_ok h2
  obtain ⟨inputBalance, h5, h6⟩ := bind_ok h4
  have hi := (signedWord_eq_some.mp (okOr_ok.mp h5)).1
  have ho := (signedWord_eq_some.mp (okOr_ok.mp h6)).1
  grind [newUtxos, Outputs.utxos, map_value_mapIdx, Inputs.amount_ok, Outputs.amount_ok,
    mapError_ok]

theorem execute_ok {utxos' : Utxos} (h : op.execute utxos = .ok utxos') :
    ∃ spent, op.inputs.execute utxos = .ok spent ∧ utxos' = spent.insertAll op.newUtxos := by
  obtain ⟨spent, h1, h2⟩ := bind_ok h
  cases h2
  exact ⟨spent, mapError_ok.mp h1, rfl⟩

end TransferOp

/-! ## The claim of a leader -/

namespace LeaderClaimOp

/-- What the proof of a claim is about. -/
def pocInput (op : LeaderClaimOp) (txHash : TxHash) : PoCInput :=
  ⟨op.voucherNullifier, op.rewardsRoot, txHash⟩

def preverify (op : LeaderClaimOp) (proof : LeaderClaimProof) (txHash : TxHash) :
    Except LeaderClaimError Unit :=
  failIf (!leaderClaimVerify proof (op.pocInput txHash)) .invalidPoC

def verify (op : LeaderClaimOp) (proof : LeaderClaimProof) (nullifiers : Finset VoucherNullifier)
    (claimableVouchersRoot : RewardsRoot) (txHash : TxHash) :
    Except LeaderClaimError (LeaderClaimProof × PoCInput) := do
  failIf (op.voucherNullifier ∈ nullifiers) .duplicatedVoucherNullifier
  failIf (claimableVouchersRoot ≠ op.rewardsRoot) .vouchersRootMismatch
  return (proof, ⟨op.voucherNullifier, claimableVouchersRoot, txHash⟩)

def utxo (op : LeaderClaimOp) (amount : Nat) : Utxo :=
  ⟨opId (.leaderClaim op), 0, ⟨amount, op.pk⟩⟩

/-- What a claim reads and changes (`LeaderClaimExecutionContext`). -/
structure Context where
  nullifiers : Finset VoucherNullifier
  rewardAmount : Nat
  claimableRewards : Nat
  utxos : Utxos

def execute (op : LeaderClaimOp) (c : Context) (txHash : TxHash) : Context × List TxEvent :=
  let utxo := op.utxo c.rewardAmount
  ({ c with
      nullifiers := insert op.voucherNullifier c.nullifiers
      utxos := c.utxos.insert utxo.id utxo
      claimableRewards := wrappingSub 64 c.claimableRewards c.rewardAmount },
    [⟨txHash, opId (.leaderClaim op), .leaderRewardClaimed op.voucherNullifier utxo⟩])

end LeaderClaimOp

/-! ## The claim of a puzzle -/

namespace ClaimPowRewardOp

/-- The ticket of a claim, from its key, block and nonce. -/
def getPuzzleTicket (op : ClaimPowRewardOp) : PowNullifier :=
  zkHash [op.publicKey, frFromModBytes op.blockHash, op.epochNonce]

/-- What a claim is checked against (`ClaimPoWRewardVerificationContext`). -/
structure VerificationContext where
  currentBlockSlot : Nat
  rewardDifficulty : Fr
  powNullifiers : Map PowNullifier Nat
  epochPowReward : Nat
  epochRewardPool : Nat
  currentEpochNonce : Fr
  previousEpochNonce : Fr
  blocksSlot : Map Hash Nat
  slotWindows : EraSchedule Nat

namespace VerificationContext

/-- The pool can pay a reward. -/
def arePowRewardEnabled (c : VerificationContext) : Except ClaimPowRewardError Unit := do
  failIf (c.epochPowReward = 0) .emptyRewards
  failIf (c.epochRewardPool < c.epochPowReward)
    (.insufficientPoolBalance c.epochRewardPool c.epochPowReward)

/-- The puzzle is of this epoch or the one before. -/
def validateEpochNonce (c : VerificationContext) (nonce : Fr) : Except ClaimPowRewardError Unit :=
  failIf (nonce ≠ c.currentEpochNonce ∧ nonce ≠ c.previousEpochNonce)
    (.mismatchEpochNonce nonce (c.previousEpochNonce, c.currentEpochNonce))

/-- The block is known and not older than the window of its era. -/
def acceptClaim (c : VerificationContext) (blockId : Hash) : Except ClaimPowRewardError Unit := do
  let blockSlot ← okOr (c.blocksSlot.lookup blockId) (.missingBlock blockId)
  let slotWindow := (c.slotWindows.atSlot blockSlot).parameters
  let slotGap ← okOr (checkedSub c.currentBlockSlot blockSlot)
    (.outOfWindowSlot blockSlot c.currentBlockSlot)
  failIf (slotWindow < slotGap) (.outOfWindowSlot blockSlot c.currentBlockSlot)

variable {c : VerificationContext} {blockId : Hash}

omit [Primitives]

theorem acceptClaim_ok {u : Unit} :
    c.acceptClaim blockId = .ok u ↔ ∃ slot, c.blocksSlot.lookup blockId = some slot ∧
      slot ≤ c.currentBlockSlot ∧
      c.currentBlockSlot - slot ≤ (c.slotWindows.atSlot slot).parameters := by
  constructor
  · intro h
    obtain ⟨slot, h1, h2⟩ := bind_ok h
    obtain ⟨gap, h3, h4⟩ := bind_ok h2
    grind [checkedSub_eq_some, okOr_ok, failIf_ok]
  · rintro ⟨slot, h1, h2, h3⟩
    refine ok_bind (okOr_ok.mpr h1) (ok_bind (a := c.currentBlockSlot - slot) ?_ ?_)
    · rw [okOr_ok, checkedSub_eq_some]
      omega
    · rw [failIf_ok]
      omega

theorem acceptClaim_missing (h : c.blocksSlot.lookup blockId = none) :
    c.acceptClaim blockId = .error (.missingBlock blockId) := by
  unfold acceptClaim
  rw [h]
  rfl

/-- A block that is known is refused when it is not before the current one or too long before it. -/
theorem acceptClaim_outOfWindow {slot : Nat} (h : c.blocksSlot.lookup blockId = some slot)
    (hw : slot ≤ c.currentBlockSlot →
      (c.slotWindows.atSlot slot).parameters < c.currentBlockSlot - slot) :
    c.acceptClaim blockId = .error (.outOfWindowSlot slot c.currentBlockSlot) := by
  cases ha : c.acceptClaim blockId with
  | ok u =>
    grind [acceptClaim_ok]
  | error e =>
    unfold acceptClaim at ha
    rw [h] at ha
    rcases bind_error ha with ha | ⟨_, h1, ha⟩
    · cases ha
    · cases h1
      grind [bind_error, okOr_error, failIf_error]

end VerificationContext

def verify (op : ClaimPowRewardOp) (c : VerificationContext) : Except ClaimPowRewardError Unit := do
  c.arePowRewardEnabled
  c.validateEpochNonce op.epochNonce
  c.acceptClaim op.blockHash
  let puzzleTicket := op.getPuzzleTicket
  failIf (c.rewardDifficulty ≤ puzzleTicket) .invalidPoWRewardTicket
  failIf (c.powNullifiers.lookup puzzleTicket).isSome .doubleClaimed

/-- What a claim reads and changes (`ClaimPoWRewardExecutionContext`). -/
structure ExecutionContext where
  rewardPool : Nat
  epochReward : Nat
  nullifiers : Map PowNullifier Nat
  utxos : Utxos
  blockSlots : Map Hash Nat

def utxo (op : ClaimPowRewardOp) (amount : Nat) : Utxo :=
  ⟨opId (.claimPowReward op), 0, ⟨amount, op.publicKey⟩⟩

def execute (op : ClaimPowRewardOp) (c : ExecutionContext) (txHash : TxHash) :
    Result ClaimPowRewardError (ExecutionContext × List TxEvent) := do
  let slot ← expect (c.blockSlots.lookup op.blockHash) .powAnchor
  let nullifier := op.getPuzzleTicket
  let utxo := op.utxo c.epochReward
  let rewardPool ← expect (checkedSub c.rewardPool c.epochReward) .powPool
  return ({ c with
      rewardPool := rewardPool
      nullifiers := c.nullifiers.insert nullifier slot
      utxos := c.utxos.insert utxo.id utxo },
    [⟨txHash, opId (.claimPowReward op), .powRewardClaimed nullifier utxo⟩])

variable {op : ClaimPowRewardOp} {c : VerificationContext} {u : Unit}
  {powNullifiers : Map PowNullifier Nat} {blocksSlot : Map Hash Nat}

theorem execute_ok {c c' : ExecutionContext} {txHash : TxHash} {events : List TxEvent}
    (h : op.execute c txHash = .ok (c', events)) :
    c.rewardPool = c.epochReward + c'.rewardPool ∧
      c'.utxos = c.utxos.insertAll [op.utxo c.epochReward] := by
  obtain ⟨_, -, h1⟩ := bind_ok h
  obtain ⟨pool, h2, h3⟩ := bind_ok h1
  cases h3
  exact ⟨checkedSub_eq_some.mp (expect_ok.mp h2), rfl⟩

/-- The block of an accepted claim is known and in the window. -/
theorem verify_anchor
    (h : op.verify c = .ok u) : ∃ slot, c.blocksSlot.lookup op.blockHash = some slot ∧
      slot ≤ c.currentBlockSlot ∧
      c.currentBlockSlot - slot ≤ (c.slotWindows.atSlot slot).parameters := by
  obtain ⟨_, -, h1⟩ := bind_ok h
  obtain ⟨_, -, h2⟩ := bind_ok h1
  obtain ⟨_, h3, -⟩ := bind_ok h2
  exact VerificationContext.acceptClaim_ok.mp h3

theorem verify_new
    (h : op.verify c = .ok u) : c.powNullifiers.lookup op.getPuzzleTicket = none := by
  obtain ⟨_, -, h1⟩ := bind_ok h
  obtain ⟨_, -, h2⟩ := bind_ok h1
  obtain ⟨_, -, h3⟩ := bind_ok h2
  obtain ⟨_, -, h4⟩ := bind_ok h3
  rw [failIf_ok] at h4
  exact Option.not_isSome_iff_eq_none.mp h4

theorem verify_of_refused {e : ClaimPowRewardError} (h : c.acceptClaim op.blockHash = .error e) :
    op.verify c = (do
      c.arePowRewardEnabled
      c.validateEpochNonce op.epochNonce
      .error e) := by
  unfold verify
  rw [h]
  rfl

/-- A claim is judged alike if its block is the same, and its puzzle within the window. -/
theorem verify_congr (hb : blocksSlot.lookup op.blockHash = c.blocksSlot.lookup op.blockHash)
    (hn : c.acceptClaim op.blockHash = .ok () →
      powNullifiers.lookup op.getPuzzleTicket = c.powNullifiers.lookup op.getPuzzleTicket) :
    op.verify { c with powNullifiers := powNullifiers, blocksSlot := blocksSlot } = op.verify c := by
  have haccept : VerificationContext.acceptClaim
      { c with powNullifiers := powNullifiers, blocksSlot := blocksSlot } op.blockHash =
        c.acceptClaim op.blockHash := by
    unfold VerificationContext.acceptClaim
    rw [hb]
  unfold verify
  rw [haccept]
  refine bind_congr fun _ => bind_congr fun _ => ?_
  cases ha : c.acceptClaim op.blockHash with
  | error e => rfl
  | ok u =>
    refine bind_congr fun _ => ?_
    simp only [hn ha]

/-- A claim is accepted where its own block is in the window and its puzzle is not solved. -/
theorem verify_of (h : op.verify c = .ok u) (hn : c.powNullifiers.lookup op.getPuzzleTicket = none →
      powNullifiers.lookup op.getPuzzleTicket = none)
    (hb : ∀ slot, c.blocksSlot.lookup op.blockHash = some slot → slot ≤ c.currentBlockSlot →
      c.currentBlockSlot - slot ≤ (c.slotWindows.atSlot slot).parameters →
      blocksSlot.lookup op.blockHash = some slot) :
    op.verify { c with powNullifiers := powNullifiers, blocksSlot := blocksSlot } = .ok u := by
  obtain ⟨_, h1, h2⟩ := bind_ok h
  obtain ⟨_, h3, h4⟩ := bind_ok h2
  obtain ⟨_, h5, h6⟩ := bind_ok h4
  obtain ⟨_, h7, h8⟩ := bind_ok h6
  refine ok_bind h1 (ok_bind h3 (ok_bind (a := ()) ?_ (ok_bind h7 ?_)))
  · grind [VerificationContext.acceptClaim_ok]
  · grind [failIf_ok, Option.not_isSome_iff_eq_none]

end ClaimPowRewardOp

end Logos.Mantle
