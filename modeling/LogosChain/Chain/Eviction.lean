import LogosChain.Chain.Proposal
import LogosChain.Ledger.Fees
import LogosChain.Ledger.Registry
import Mathlib.Algebra.Order.BigOperators.Group.List
import Mathlib.Algebra.Order.Group.Nat

/-!
# Evicted transactions (`services/chain/chain-leader/src/{tx_selection,lib}.rs`)

What a leader could not select it reports as invalid, and the mempool drops it. If the block is not
cut, a report is about the block itself (`Fits`); a block that is cut is shorter than what the
reports are about.
-/

namespace Logos.Chain

open Base Mantle Ledger Assembly List

section

variable [Primitives]

/-- The ledger accepts transactions as the contents of a block. -/
def Accepts (eras : EraScheduledConfig) (s : LedgerState) (txs : List SignedOps) : Prop :=
  ∃ s' events deferred, s.tryApplyBlockContents eras txs = .ok (s', events, deferred) ∧
    deferred.verify = .ok ()

instance (eras : EraScheduledConfig) (s : LedgerState) (txs : List SignedOps) :
    Decidable (Accepts eras s txs) :=
  match h : s.tryApplyBlockContents eras txs with
  | .ok (s', events, deferred) =>
    decidable_of_iff (deferred.verify = .ok ())
      ⟨fun hv => ⟨s', events, deferred, h, hv⟩, fun ⟨_, _, _, h', hv⟩ => by
        cases h.symm.trans h'
        exact hv⟩
  | .error _ => .isFalse fun ⟨_, _, _, h', _⟩ => by cases h.symm.trans h'

variable {eras : EraScheduledConfig} {s parent : LedgerState} {pending txs : List SignedOps}
  {tx : SignedOps} {b b' : BlockBuilder} {q q' : BlockRun} {h : Header}
  {headerEvents : List HeaderEvent} {sel : TransactionSelection}
  {zkValid : ZkSignature × ZkSignInputs → Prop} {pocValid : LeaderClaimProof × PoCInput → Prop}

/-- How large the transactions of a block may be together. -/
def sizeLimit (eras : EraScheduledConfig) (s : LedgerState) : Nat :=
  (configForSlot eras s.slot).maxTransactionsSize

/-- Together the transactions are within the limits of a block on a state. -/
def Fits (eras : EraScheduledConfig) (s : LedgerState) (txs : List SignedOps) : Prop :=
  txs.length ≤ (configForSlot eras s.slot).maxTransactions ∧
    (txs.map SignedOps.storageSize).sum ≤ sizeLimit eras s

/-! ## What is reported -/

/-- The ledger applies a transaction to a block where the leader would have added it. -/
theorem tryAddTransaction_of_step {index : Nat} {config : Config}
    (hconfig : config = configForSlot eras q.state.slot)
    (h : BlockRun.step eras config q (tx, index) = .ok q') :
    ∃ deferred, (BlockBuilder.mk q.state q.gasAndFees).tryAddTransaction tx eras =
        .ok (⟨q'.state, q'.gasAndFees⟩, deferred) ∧
      q'.deferredProofs = q.deferredProofs.extend deferred := by
  obtain ⟨g, events, deferred, happly, hgas, -, -, -, hproofs⟩ := BlockRun.step_ok h
  rw [hconfig] at hgas
  exact ⟨deferred, ok_bind happly (ok_bind (lift_ok.mpr hgas) rfl), hproofs⟩

theorem builder_of_blockRun (hrun : Run (BlockBuilder.Adds eras) (.new s) txs b)
    (h : txs.zipIdx.foldlM (BlockRun.step eras (configForSlot eras s.slot)) (.start s) = .ok q) :
    b = ⟨q.state, q.gasAndFees⟩ := by
  generalize hstart : BlockBuilder.new s = start at hrun
  induction hrun generalizing q with
  | nil =>
    cases foldlM_nil_ok h
    exact hstart.symm
  | snoc hrun hadd ih =>
    rename_i b1 b2 txs tx
    rw [zipIdx_append, foldlM_append] at h
    obtain ⟨q1, h1, h2⟩ := bind_ok h
    obtain ⟨q2, hstep, h3⟩ := foldlM_cons_ok h2
    cases foldlM_nil_ok h3
    obtain rfl := ih h1
    have hslot := BlockBuilder.slot_of_run hrun
    rw [← hstart] at hslot
    obtain ⟨_, hadd', -⟩ := tryAddTransaction_of_step (congrArg (configForSlot eras) hslot.symm) hstep
    obtain ⟨_, hadd, -⟩ := hadd
    cases hadd.symm.trans hadd'
    rfl

/-- A transaction that the ledger accepts after those of a leader can be added by the leader too. -/
theorem Accepts.adds (hzk : BatchDecides Primitives.zkSignBatchVerify zkValid)
    (hpoc : BatchDecides Primitives.pocBatchVerify pocValid) (hlimit : sizeLimit eras s < 2 ^ 32)
    (hrun : Run (BlockBuilder.Adds eras) (.new s) txs b) (h : Accepts eras s (txs ++ [tx])) :
    (∃ b', b.Adds eras tx b') ∧ tx.storageSize ≤ sizeLimit eras s := by
  obtain ⟨s', events, deferred, hcontents, hverify⟩ := h
  obtain ⟨q, hq, -, -, rfl⟩ := LedgerState.tryApplyBlockContents_ok hcontents
  rw [zipIdx_append, foldlM_append] at hq
  obtain ⟨q1, h1, h2⟩ := bind_ok hq
  obtain ⟨q2, hstep, h3⟩ := foldlM_cons_ok h2
  cases foldlM_nil_ok h3
  obtain rfl := builder_of_blockRun hrun h1
  have hslot := BlockBuilder.slot_of_run hrun
  obtain ⟨d, hadd, hproofs⟩ :=
    tryAddTransaction_of_step (congrArg (configForSlot eras) hslot.symm) hstep
  obtain ⟨_, _, _, -, -, -, hsize, hle, -⟩ := BlockRun.step_ok hstep
  constructor
  · -- The proofs of the block are valid together, so those of the transaction are.
    have hvalid := (DeferredProofs.verify_ok_iff hzk hpoc).mp hverify
    rw [hproofs] at hvalid
    refine ⟨_, d, hadd, (DeferredProofs.verify_ok_iff hzk hpoc).mpr ⟨fun p hp => ?_, fun p hp => ?_⟩⟩
    · exact hvalid.zkSigs p (mem_append_right _ hp)
    · exact hvalid.leaderClaims p (mem_append_right _ hp)
  · rw [hsize] at hle
    unfold saturatingAdd at hle
    unfold sizeLimit at hlimit ⊢
    dsimp only at hle
    omega

end

/-! ## A block that is cut -/

end Logos.Chain
