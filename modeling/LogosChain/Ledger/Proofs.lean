import LogosChain.Ledger.Fees

/-!
# The ledger does not depend on proofs

The hash of a transaction covers its operations and not their proofs, yet the fees are for its whole
encoding. The state after a block is the same all the same: the length of an accepted proof is
determined, and no operation writes anything of its proof.
-/

namespace Logos

open Base

namespace Mantle

variable [Primitives]

/-- The same transaction, maybe with other proofs. -/
def SignedOps.SameOps (tx tx' : SignedOps) : Prop :=
  tx.forkDigest = tx'.forkDigest ∧ tx.ops.map SignedOp.operation = tx'.ops.map SignedOp.operation

theorem SignedOps.SameOps.hash {tx tx' : SignedOps} (h : tx.SameOps tx') : tx.hash = tx'.hash := by
  rw [SignedOps.hash, h.1, h.2]
  rfl

end Mantle

namespace Ledger

open Mantle

section

variable [Primitives] {eras : EraScheduledConfig} {config : Config} {s : LedgerState}
  {txHash : TxHash} {deferred deferred' : DeferredProofs}

theorem LedgerState.tryApplyOp_of_operation {op op' : SignedOp} {balance : Int}
    (h : op.operation = op'.operation) :
    s.tryApplyOp op config txHash balance = s.tryApplyOp op' config txHash balance := by
  cases op <;> cases op' <;> cases h <;> rfl

/-- Two runs of a transaction that differ in the proofs they leave. -/
def TxRun.SameOutcome (r q : TxRun) : Prop := q = { r with deferredProofs := q.deferredProofs }

theorem TxRun.SameOutcome.step {r r' q q' : TxRun} {op op' : SignedOp × Nat} (hr : r.SameOutcome q)
    (hop : op.1.operation = op'.1.operation ∧ op.2 = op'.2)
    (h : TxRun.step eras config txHash r op = .ok r')
    (h' : TxRun.step eras config txHash q op' = .ok q') :
    r'.SameOutcome q' ∧ op.1.proofEncodedLength = op'.1.proofEncodedLength := by
  obtain ⟨deferred, rfl⟩ : ∃ d, q = { r with deferredProofs := d } := ⟨_, hr⟩
  obtain ⟨_, gas, events, hverify, hgas, hsum, happly, hevents, -⟩ := step_ok h
  obtain ⟨_, gas', events', hverify', hgas', hsum', happly', hevents', -⟩ := step_ok h'
  rw [LedgerState.tryApplyOp_of_operation hop.1] at happly
  constructor
  · cases r'
    cases q'
    grind [SameOutcome]
  · rw [← proofSize_of_verify hverify, ← proofSize_of_verify hverify', hop.1]

/-- Other accepted proofs change nothing of the outcome. -/
theorem LedgerState.tryApplyTransaction_of_sameOps {s1 s2 : LedgerState} {tx tx' : SignedOps}
    {g g' : GasAndFees} {events events' : List TxEvent} (htx : tx.SameOps tx')
    (h : s.tryApplyTransaction eras tx = .ok (s1, g, events, deferred))
    (h' : s.tryApplyTransaction eras tx' = .ok (s2, g', events', deferred')) :
    s1 = s2 ∧ g = g' ∧ events = events' ∧ tx.storageSize = tx'.storageSize := by
  obtain ⟨r, h1, rfl, rfl, hfee, -, htrunc, hgas, hstored, -⟩ := tryApplyTransaction_ok.mp h
  obtain ⟨q, h1', rfl, rfl, hfee', -, htrunc', hgas', hstored', -⟩ := tryApplyTransaction_ok.mp h'
  obtain ⟨_, -, hr⟩ := bind_ok h1
  obtain ⟨_, -, hq⟩ := bind_ok h1'
  rw [← htx.hash] at hq
  obtain ⟨hsame, hlengths⟩ := foldlM_together
    (forall₂_zipIdx (map_eq_map_iff_forall₂.mp htx.2) 0) hr hq (R := TxRun.SameOutcome) rfl
    fun _ _ _ _ _ _ hop hR h h' => hR.step hop h h'
  have hsize : tx.storageSize = tx'.storageSize := by
    have hproofs := map_eq_map_iff_forall₂.mpr hlengths
    rw [map_zipIdx_fst SignedOp.proofEncodedLength, map_zipIdx_fst SignedOp.proofEncodedLength]
      at hproofs
    rw [SignedOps.storageSize, SignedOps.storageSize, htx.1, htx.2, hproofs]
  obtain ⟨d, rfl⟩ : ∃ d, q = { r with deferredProofs := d } := ⟨_, hsame⟩
  cases g
  cases g'
  grind

/-- Two blocks so far that differ in the proofs they leave. -/
def BlockRun.SameOutcome (b q : BlockRun) : Prop :=
  q = { b with deferredProofs := q.deferredProofs }

theorem BlockRun.SameOutcome.step {b b' q q' : BlockRun} {tx tx' : SignedOps × Nat}
    (hb : b.SameOutcome q) (htx : tx.1.SameOps tx'.1 ∧ tx.2 = tx'.2)
    (h : BlockRun.step eras config b tx = .ok b')
    (h' : BlockRun.step eras config q tx' = .ok q') : b'.SameOutcome q' := by
  obtain ⟨deferred, rfl⟩ : ∃ d, q = { b with deferredProofs := d } := ⟨_, hb⟩
  obtain ⟨g, events, _, happly, hgas, hevents, hsize⟩ := step_ok h
  obtain ⟨g', events', _, happly', hgas', hevents', hsize'⟩ := step_ok h'
  cases q'
  grind [LedgerState.tryApplyTransaction_of_sameOps, SameOutcome]

theorem LedgerState.tryApplyBlockContents_of_sameOps {s1 s2 : LedgerState}
    {txs txs' : List SignedOps} {events events' : List TxEvent}
    (htxs : List.Forall₂ SignedOps.SameOps txs txs')
    (h : s.tryApplyBlockContents eras txs = .ok (s1, events, deferred))
    (h' : s.tryApplyBlockContents eras txs' = .ok (s2, events', deferred')) :
    s1 = s2 ∧ events = events' := by
  obtain ⟨b, h1, h2, rfl, -⟩ := tryApplyBlockContents_ok h
  obtain ⟨q, h1', h2', rfl, -⟩ := tryApplyBlockContents_ok h'
  obtain ⟨hsame, -⟩ := foldlM_together (forall₂_zipIdx htxs 0) h1 h1'
    (R := BlockRun.SameOutcome) (Q := fun _ _ => True) rfl
    fun _ _ _ _ _ _ htx hR h h' => ⟨hR.step htx h h', trivial⟩
  rw [hsame] at h2' ⊢
  exact ⟨Except.ok.inj (h2.symm.trans h2'), rfl⟩

/-- **The state after a block does not depend on its proofs**, nor do its events. -/
theorem LedgerState.state_without_proofs {s s1 s2 : LedgerState} {id : Hash} {h : Header}
    {txs txs' : List SignedOps} {events events' : List Event} {deferred deferred' : DeferredProofs}
    (hhash : ∀ tx ∈ txs, ∀ tx' ∈ txs', tx.hash = tx'.hash → tx.SameOps tx')
    (htxs : txs.map SignedOps.hash = txs'.map SignedOps.hash)
    (h1 : s.tryUpdate id h txs eras = .ok (s1, events, deferred))
    (h2 : s.tryUpdate id h txs' eras = .ok (s2, events', deferred')) :
    s1 = s2 ∧ events = events' := by
  have hsame : List.Forall₂ SignedOps.SameOps txs txs' := by
    grind [List.of_mem_zip, List.forall₂_iff_zip, map_eq_map_iff_forall₂]
  have hlength := congrArg List.length htxs
  rw [List.length_map, List.length_map] at hlength
  obtain ⟨t, headerEvents, t1, txEvents, h3, h4, h5, rfl⟩ := tryUpdate_ok h1
  obtain ⟨t', headerEvents', t1', txEvents', h3', h4', h5', rfl⟩ := tryUpdate_ok h2
  grind [tryApplyBlockContents_of_sameOps]

end

/-- Configures the channel of genesis under the signature of its key. -/
def configureTx (keySignature : Ed25519Signature) (signature : ZkSignature) : SignedOps :=
  ⟨0, [.channelConfig ⟨3, 0, ⟨[4], by simp, by simp [channelMaxKeys]⟩, 0, 0, 1, 1, Nat.one_pos,
      Nat.one_pos, le_rfl⟩ ⟨[(0, keySignature)], List.pairwise_singleton _ _⟩,
    .transfer ⟨.single 9001, .empty⟩ signature]⟩

def configuredTwice [Primitives] : Result LedgerError (LedgerState ×
    (LedgerState × List Event × DeferredProofs) × (LedgerState × List Event × DeferredProofs)) := do
  let g ← LedgerState.fromGenesisTx genesisWithService .small
  let r ← g.tryUpdate 1 (headerAt 1) [configureTx 5 1] (.single .small)
  let r' ← g.tryUpdate 1 (headerAt 1) [configureTx 6 2] (.single .small)
  return (g, r, r')

theorem state_without_proofs_configured :
    letI := Primitives.plain
    ∃ g s s' events events' deferred deferred',
      LedgerState.fromGenesisTx genesisWithService .small = .ok g ∧
      g.tryUpdate 1 (headerAt 1) [configureTx 5 1] (.single .small) = .ok (s, events, deferred) ∧
      g.tryUpdate 1 (headerAt 1) [configureTx 6 2] (.single .small) =
        .ok (s', events', deferred') ∧
      deferred ≠ deferred' ∧ s = s' := by
  let _ := Primitives.plain
  obtain ⟨⟨g, ⟨s, events, deferred⟩, s', events', deferred'⟩, h, hne⟩ :=
    exists_ok (x := configuredTwice) (fun r => r.2.1.2.2 ≠ r.2.2.2.2) (by decide +kernel)
  obtain ⟨_, h1, h2⟩ := bind_ok h
  obtain ⟨_, h3, h4⟩ := bind_ok h2
  obtain ⟨_, h5, h6⟩ := bind_ok h4
  cases h6
  have hhashes : [configureTx 5 1].map SignedOps.hash = [configureTx 6 2].map SignedOps.hash := rfl
  refine ⟨g, s, s', events, events', deferred, deferred', h1, h3, h5, hne, ?_⟩
  refine (LedgerState.state_without_proofs ?_ hhashes h3 h5).1
  intro tx htx tx' htx' _
  rw [List.mem_singleton.mp htx, List.mem_singleton.mp htx']
  exact ⟨rfl, rfl⟩

end Ledger

end Logos
