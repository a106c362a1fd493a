import LogosChain.Chain.Selection
import LogosChain.Ledger.Anchors

/-!
# What a leader builds, the ledger accepts

The leader checks the transactions of its block one by one, on a state that has not recorded the
block. Every node applies the block on a state that has recorded it, and with the proofs of all
transactions together.
-/

namespace Logos

open Base Mantle Primitives

namespace Ledger

/-! ## Accounting at the end of a block -/

/-- The reward of the leader of a block before its tips. -/
def LedgerState.leaderReward (s : LedgerState) (feeBurned : Nat) (config : Config) : Nat :=
  let index := CryptarchiaLedger.windowIndex s.blockNumber
  let pooled := feeBurned - config.powConfig.reward.powFeeShare feeBurned
  let l := s.cryptarchiaLedger.updateFeeWindow index pooled
  (config.blockRewards.rewards l.feeWindow.toList.sum (l.feeWindow.get index)
    l.epochState.totalStake).2

/-- What the end of a block adds up fits 64 bits. -/
structure AccountingFits (s : LedgerState) (g : GasAndFees) (numTxs : Nat) (config : Config) :
    Prop where
  leaderReward : s.leaderReward g.feeBurned config + g.feeTip < 2 ^ 64
  refill : s.mantleLedger.pow.reward.refillRewards +
    config.powConfig.reward.powFeeShare g.feeBurned < 2 ^ 64
  storageGas : s.cryptarchiaLedger.storageGasConsumedInEpoch + g.storageGas < 2 ^ 64
  blocks : s.mantleLedger.pow.txDensity.currentEpoch.blocks + 1 < 2 ^ 64
  txs : s.mantleLedger.pow.txDensity.currentEpoch.txs + numTxs < 2 ^ 64

instance {s : LedgerState} {g : GasAndFees} {numTxs : Nat} {config : Config} :
    Decidable (AccountingFits s g numTxs config) :=
  decidable_of_iff
    (s.leaderReward g.feeBurned config + g.feeTip < 2 ^ 64 ∧
      s.mantleLedger.pow.reward.refillRewards +
        config.powConfig.reward.powFeeShare g.feeBurned < 2 ^ 64 ∧
      s.cryptarchiaLedger.storageGasConsumedInEpoch + g.storageGas < 2 ^ 64 ∧
      s.mantleLedger.pow.txDensity.currentEpoch.blocks + 1 < 2 ^ 64 ∧
      s.mantleLedger.pow.txDensity.currentEpoch.txs + numTxs < 2 ^ 64)
    ⟨fun ⟨h1, h2, h3, h4, h5⟩ => ⟨h1, h2, h3, h4, h5⟩,
      fun ⟨h1, h2, h3, h4, h5⟩ => ⟨h1, h2, h3, h4, h5⟩⟩

namespace AccountingFits

variable {s : LedgerState} {g : GasAndFees} {numTxs : Nat} {config : Config}

variable (h : AccountingFits s g numTxs config)
include h

theorem computeBlockRewards :
    ∃ s', s.computeBlockRewards g.feeBurned g.feeTip config = .ok s' ∧
      s'.mantleLedger.pow.txDensity = s.mantleLedger.pow.txDensity ∧
      s'.cryptarchiaLedger.storageGasConsumedInEpoch =
        s.cryptarchiaLedger.storageGasConsumedInEpoch := by
  have hshare := config.powConfig.reward.powFeeShare_le g.feeBurned
  have hpooled := checkedSub_eq_some.mpr (Nat.add_sub_cancel' hshare).symm
  have hreward := checkedAdd_eq_some.mpr ⟨rfl, h.leaderReward⟩
  have hrefill := checkedAdd_eq_some.mpr ⟨rfl, h.refill⟩
  exact ⟨_, ok_bind (okOr_ok.mpr hpooled) (ok_bind (okOr_ok.mpr hreward)
    (ok_bind (lift_ok.mpr (ok_bind (okOr_ok.mpr hrefill) rfl)) rfl)), rfl, rfl⟩

/-- A block whose accounting fits can be settled and counted. -/
theorem settleBlock :
    ∃ s', s.settleBlock g config = .ok s' ∧
      s'.mantleLedger.pow.txDensity = s.mantleLedger.pow.txDensity := by
  obtain ⟨s1, h1, hdensity, hstorage⟩ := h.computeBlockRewards
  have hgas : s1.cryptarchiaLedger.storageGasConsumedInEpoch + g.storageGas < 2 ^ 64 := by
    rw [hstorage]
    exact h.storageGas
  have hadd : (s1.cryptarchiaLedger.updateExecutionMarket g.executionGas
      config.executionMarket).addStorageGasConsumed g.storageGas = some _ :=
    Option.bind_eq_some_iff.mpr ⟨_, checkedAdd_eq_some.mpr ⟨rfl, hgas⟩, rfl⟩
  exact ⟨_, ok_bind h1 (ok_bind (okOr_ok.mpr hadd) rfl), hdensity⟩

theorem recordBlock {s' : LedgerState}
    (hs : s'.mantleLedger.pow.txDensity = s.mantleLedger.pow.txDensity) (claims : Nat) :
    ∃ s'', s'.recordBlock numTxs claims config = .ok s'' := by
  have hblocks := h.blocks
  have htxs := h.txs
  rw [← hs] at hblocks htxs
  have hcount : (s'.mantleLedger.pow.txDensity.recordBlock numTxs : Result LedgerError _) = .ok _ :=
    ok_bind (expect_ok.mpr (checkedAdd_eq_some.mpr ⟨rfl, hblocks⟩))
      (ok_bind (expect_ok.mpr (checkedAdd_eq_some.mpr ⟨rfl, htxs⟩)) rfl)
  exact ⟨_, ok_bind (ok_bind hcount rfl) rfl⟩

theorem of_covers {t : LedgerState} {id : Hash} {eras : EraScheduledConfig}
    (hc : s.Covers id eras t) : AccountingFits t g numTxs config := by
  rw [hc.same]
  exact ⟨h.leaderReward, h.refill, h.storageGas, h.blocks, h.txs⟩

end AccountingFits

end Ledger

namespace Chain

open Ledger

section

variable [Primitives] {id : Hash} {eras : EraScheduledConfig} {s t : LedgerState}
  {b b' : BlockBuilder} {q : BlockRun} {tx : SignedOps} {txs : List SignedOps}
  {zkValid : ZkSignature × ZkSignInputs → Prop} {pocValid : LeaderClaimProof × PoCInput → Prop}

/-! ## The same transactions in a block -/

/-- The built block and the applied one agree but for what puzzles read. -/
structure Follows (id : Hash) (eras : EraScheduledConfig)
    (zkValid : ZkSignature × ZkSignInputs → Prop) (pocValid : LeaderClaimProof × PoCInput → Prop)
    (b : BlockBuilder) (q : BlockRun) : Prop where
  state : b.ledgerState.Covers id eras q.state
  gasAndFees : q.gasAndFees = b.gasAndFees
  valid : q.deferredProofs.Valid zkValid pocValid

theorem BlockBuilder.tryAddTransaction_ok {deferred : DeferredProofs}
    (h : b.tryAddTransaction tx eras = .ok (b', deferred)) :
    ∃ g events, b.ledgerState.tryApplyTransaction eras tx = .ok (b'.ledgerState, g, events, deferred)
      ∧ b.gasAndFees.checkedAdd g (configForSlot eras b.ledgerState.slot).executionMarket.maxGasPerBlock
        = .ok b'.gasAndFees := by
  obtain ⟨⟨state, g, events, _⟩, h1, h2⟩ := bind_ok h
  obtain ⟨_, h3, h4⟩ := bind_ok h2
  cases h4
  exact ⟨g, events, h1, lift_ok.mp h3⟩

theorem BlockBuilder.slot_of_run (h : Run (Adds eras) b txs b') :
    b'.ledgerState.slot = b.ledgerState.slot := by
  refine h.invariant (I := fun c => c.ledgerState.slot = b.ledgerState.slot) rfl ?_
  rintro c tx c' hc ⟨deferred, hadd, -⟩
  grind [tryAddTransaction_ok, LedgerState.tryApplyTransaction_slot]

/-- A transaction that the leader adds is applied to the block, if the block has room for it. -/
theorem Follows.step (hf : Follows id eras zkValid pocValid b q) {index : Nat}
    (hzk : BatchDecides zkSignBatchVerify zkValid)
    (hpoc : BatchDecides pocBatchVerify pocValid)
    (hid : ∀ op ∈ tx.ops, op.anchor ≠ some id)
    (hindex : index < (configForSlot eras b.ledgerState.slot).maxTransactions)
    (hsize : q.transactionsSize + tx.storageSize ≤
      (configForSlot eras b.ledgerState.slot).maxTransactionsSize) (hadd : b.Adds eras tx b') :
    ∃ q', BlockRun.step eras (configForSlot eras b.ledgerState.slot) q (tx, index) = .ok q' ∧
      q'.transactionsSize ≤ q.transactionsSize + tx.storageSize ∧
      Follows id eras zkValid pocValid b' q' := by
  obtain ⟨deferred, h1, hv⟩ := hadd
  obtain ⟨g, events, happly, hgas⟩ := BlockBuilder.tryAddTransaction_ok h1
  obtain ⟨t', ht, hc⟩ := hf.state.apply_transaction hid happly
  rw [← hf.gasAndFees] at hgas
  have hle : saturatingAdd 64 q.transactionsSize tx.storageSize ≤
      q.transactionsSize + tx.storageSize := Nat.min_le_left _ _
  refine ⟨_, ok_bind (failIf_of_not (not_le.mpr hindex)) (ok_bind (failIf_of_not
    (not_lt.mpr (hle.trans hsize))) (ok_bind ht (ok_bind (lift_ok.mpr hgas) rfl))), hle, hc, rfl, ?_⟩
  exact hf.valid.extend ((DeferredProofs.verify_ok_iff hzk hpoc).mp hv)

/-- Transactions that the leader adds are applied to the block, if it has room for them. -/
theorem Follows.run (hc : s.Covers id eras t) (hzk : BatchDecides zkSignBatchVerify zkValid)
    (hpoc : BatchDecides pocBatchVerify pocValid)
    (hid : ∀ tx ∈ txs, ∀ op ∈ tx.ops, op.anchor ≠ some id)
    (hlength : txs.length ≤ (configForSlot eras s.slot).maxTransactions)
    (hsize : (txs.map SignedOps.storageSize).sum ≤ (configForSlot eras s.slot).maxTransactionsSize)
    (hrun : Run (BlockBuilder.Adds eras) (.new s) txs b) :
    ∃ q, txs.zipIdx.foldlM (BlockRun.step eras (configForSlot eras s.slot)) (.start t) = .ok q ∧
      q.transactionsSize ≤ (txs.map SignedOps.storageSize).sum ∧
      Follows id eras zkValid pocValid b q := by
  generalize hstart : BlockBuilder.new s = start at hrun
  induction hrun with
  | nil => exact ⟨_, rfl, le_rfl, hstart ▸ hc, hstart ▸ rfl, .empty⟩
  | snoc hrun hadd ih =>
    rename_i b1 b2 txs tx
    have hslot : b1.ledgerState.slot = s.slot := by
      rw [BlockBuilder.slot_of_run hrun, ← hstart]
      rfl
    simp only [List.length_append, List.length_singleton, List.map_append, List.map_singleton,
      List.sum_append, List.sum_singleton] at hlength hsize ⊢
    obtain ⟨q, hq, hqsize, hf⟩ := ih (fun tx htx => hid tx (List.mem_append_left _ htx))
      (by omega) (by omega)
    rw [← hslot] at hlength hsize
    obtain ⟨q', hstep, hle, hf'⟩ := hf.step hzk hpoc (hid tx (by simp))
      (show txs.length < _ by omega) (by omega) hadd
    rw [hslot] at hstep
    refine ⟨q', ?_, by omega, hf'⟩
    rw [List.zipIdx_append, List.foldlM_append]
    refine ok_bind hq ?_
    rw [Nat.zero_add]
    exact ok_bind hstep rfl

/-! ## The block -/

theorem slot_of_header {h : Header} {events : List HeaderEvent} {s' : LedgerState}
    (hh : s.tryApplyHeader h eras = .ok (s', events)) : s'.slot = h.slot := by
  obtain ⟨l, effect, hp, -⟩ := LedgerState.tryApplyHeader_ok hh
  exact hp.slot.2

/-- A block of transactions that the leader can add one after the other is accepted. -/
theorem tryUpdate_of_run {parent : LedgerState} {h : Header} {headerEvents : List HeaderEvent}
    (hheader : parent.tryApplyHeader h eras = .ok (s, headerEvents))
    (hzk : BatchDecides zkSignBatchVerify zkValid)
    (hpoc : BatchDecides pocBatchVerify pocValid)
    (hid : ∀ tx ∈ txs, ∀ op ∈ tx.ops, op.anchor ≠ some id)
    (hlength : txs.length ≤ (configForSlot eras h.slot).maxTransactions)
    (hsize : (txs.map SignedOps.storageSize).sum ≤ (configForSlot eras h.slot).maxTransactionsSize)
    (hrun : Run (BlockBuilder.Adds eras) (.new s) txs b)
    (hfits : AccountingFits b.ledgerState b.gasAndFees txs.length (configForSlot eras h.slot)) :
    ∃ s' events deferred, parent.tryUpdate id h txs eras = .ok (s', events, deferred) ∧
      deferred.verify = .ok () := by
  have hslot := slot_of_header hheader
  rw [← hslot] at hlength hsize hfits
  obtain ⟨q, hq, -, hf⟩ := Follows.run (s.covers_addSeenBlock id eras) hzk hpoc hid hlength hsize
    hrun
  -- The applied block has the accounts of the one under construction.
  rw [← hf.gasAndFees] at hfits
  have hfits' := hfits.of_covers hf.state
  obtain ⟨s1, hsettle, hdensity⟩ := hfits'.settleBlock
  obtain ⟨s2, hrecord⟩ := hfits'.recordBlock hdensity (q.events.countP LedgerState.isPowRewardClaimed)
  have hcontents : (s.addSeenBlock id s.slot eras).tryApplyBlockContents eras txs =
      .ok (s1, q.events, q.deferredProofs) := ok_bind hq (ok_bind hsettle rfl)
  rw [hslot] at hcontents hrecord
  exact ⟨s2, _, q.deferredProofs, ok_bind hheader (ok_bind hcontents (ok_bind hrecord rfl)),
    (DeferredProofs.verify_ok_iff hzk hpoc).mpr hf.valid⟩

/-- A block of the transactions that a leader has selected is accepted on the same parent, if no
puzzle is anchored to the block itself and the accounting fits its words. -/
theorem proposal_accepted {parent : LedgerState} {h : Header} {headerEvents : List HeaderEvent}
    {pending : List SignedOps} {sel : TransactionSelection}
    (hheader : parent.tryApplyHeader h eras = .ok (s, headerEvents))
    (hsel : selectTransactions s pending eras = .ok sel)
    (hid : ∀ tx ∈ pending, ∀ op ∈ tx.ops, op.anchor ≠ some id)
    (hzk : BatchDecides zkSignBatchVerify zkValid)
    (hpoc : BatchDecides pocBatchVerify pocValid) :
    ∃ block, txsForBlock sel.selectedTxs (configForSlot eras h.slot).maxTransactions
        (configForSlot eras h.slot).maxTransactionsSize = .ok block ∧
      ∃ b, (BlockBuilder.new s).tryAddTransactions block.txs eras = .ok b ∧
        (AccountingFits b.ledgerState b.gasAndFees block.txs.length (configForSlot eras h.slot) →
          ∃ s' events deferred, parent.tryUpdate id h block.txs eras = .ok (s', events, deferred) ∧
            deferred.verify = .ok ()) := by
  obtain ⟨block, hblock, ⟨rest, hrest⟩, hsize⟩ := txsForBlock_spec sel.selectedTxs
  obtain ⟨hpending, _, hall, -⟩ := selectTransactions_run hsel
  rw [← hrest] at hpending hall
  obtain ⟨b, hrun, -⟩ := hall.of_append
  refine ⟨block, hblock, b, BlockBuilder.tryAddTransactions_of_run hrun, fun hfits => ?_⟩
  have hid' : ∀ tx ∈ block.txs, ∀ op ∈ tx.ops, op.anchor ≠ some id :=
    fun tx htx => hid tx (hpending.subset (List.mem_append_left _ htx))
  exact tryUpdate_of_run hheader hzk hpoc hid' block.bounded hsize hrun hfits

end

/-- A state with a note, a pool for puzzles, and a block to anchor them. -/
def withPuzzles [Primitives] : LedgerState :=
  (LedgerState.fromUtxos [⟨0, 0, ⟨1001, 7⟩⟩] .small 50 []).addSeenBlock 0 0 (.single .small)

def firstTx : SignedOps :=
  ⟨0, [.transfer ⟨.single 0, .single ⟨500, 7⟩⟩ 0]⟩

def dependentTx : SignedOps :=
  ⟨0, [.transfer ⟨.single 9000, .empty⟩ 0]⟩

/-- Claims a puzzle and spends the note of the claim. -/
def puzzleTx : SignedOps :=
  ⟨0, [.claimPowReward ⟨0, 0, 7⟩,
    .transfer ⟨.single 122000, .empty⟩ 0]⟩

/-- The transaction that depends on another one is selected in the second round. -/
theorem proposal_accepted_dependent :
    letI := plain
    ∃ s sel block, proposeBlock withPuzzles ⟨1, ⟨0, 0, 0, 0⟩, []⟩
        [dependentTx, firstTx, ⟨1, []⟩, puzzleTx] (.single .small) = .ok (s, sel, block) ∧
      block.txs = [firstTx, puzzleTx, dependentTx] ∧
      ∃ s' events deferred, withPuzzles.tryUpdate 1 ⟨1, ⟨0, 0, 0, 0⟩, []⟩ block.txs
        (.single .small) = .ok (s', events, deferred) ∧ deferred.verify = .ok () := by
  let _ := plain
  obtain ⟨⟨s, sel, block⟩, h, htxs, hfits⟩ :=
    exists_ok (x := proposeBlock withPuzzles ⟨1, ⟨0, 0, 0, 0⟩, []⟩
      [dependentTx, firstTx, ⟨1, []⟩, puzzleTx] (.single .small))
      (fun r => r.2.2.txs = [firstTx, puzzleTx, dependentTx] ∧
        ∀ b, (BlockBuilder.new r.1).tryAddTransactions r.2.2.txs (.single .small) = .ok b →
          AccountingFits b.ledgerState b.gasAndFees r.2.2.txs.length .small) (by decide +kernel)
  obtain ⟨⟨s1, _⟩, hheader, h1⟩ := bind_ok h
  obtain ⟨sel1, hsel, h2⟩ := bind_ok h1
  obtain ⟨block1, hblock, h3⟩ := bind_ok h2
  cases h3
  have hid : ∀ tx ∈ [dependentTx, firstTx, ⟨1, []⟩, puzzleTx], ∀ op ∈ tx.ops,
      op.anchor ≠ some 1 := by decide +kernel
  obtain ⟨block', hblock', b, hb, haccepted⟩ := proposal_accepted hheader (mapError_ok.mp hsel) hid
    .all .all
  cases (mapError_ok.mp hblock).symm.trans hblock'
  exact ⟨s, sel, block, h, htxs, haccepted (hfits b hb)⟩

end Chain

end Logos
