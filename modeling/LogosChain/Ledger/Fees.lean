import LogosChain.Ledger.Channels
import LogosChain.Mantle.Builder

/-!
# The fee of a transaction is known before it is signed

The ledger charges for the gas of the operations under the channels as the operations before have
left them, and for the bytes of the proofs. An accepted operation carries exactly as many signatures
as the thresholds ask for, so a wallet that replays the changes of the thresholds finds the same
fee.
-/

namespace Logos.Ledger

open Base Mantle

variable [Primitives] {s s' : LedgerState} {eras : EraScheduledConfig} {config : Config}
  {txHash : TxHash} {t : RunningThresholds} {proof : ChannelMultiSigProof} {c : Channels}
  {opIndex : Nat} {op : SignedOp} {r : TxRun}

/-- What a transaction is priced against on top of the state. -/
def LedgerState.txContext (s : LedgerState) (gasProfile : GasProfile) : OpsContext where
  gasContext := .fromChannels s.channels s.getGasPrices gasProfile
  leaderRewardAmount := s.mantleLedger.leaders.rewardAmount

/-! ## The size of a proof -/

theorem ChannelConfigOp.verify_length {op : ChannelConfigOp}
    (h : op.verify proof c txHash = .ok ()) :
    proof.signatures.length = c.configurationThreshold op.channel := by
  unfold ChannelConfigOp.verify at h
  cases hstate : c.channelState op.channel with
  | some state =>
    rw [hstate] at h
    obtain ⟨_, -, h1⟩ := bind_ok h
    obtain ⟨_, h2, -⟩ := bind_ok h1
    have hlookup : c.channels.lookup op.channel = some state := hstate
    rw [Channels.configurationThreshold, hlookup]
    exact not_not.mp (failIf_ok.mp h2)
  | none =>
    rw [hstate] at h
    obtain ⟨_, -, h1⟩ := bind_ok h
    have hlookup : c.channels.lookup op.channel = none := hstate
    rw [Channels.configurationThreshold, hlookup, not_not.mp (failIf_ok.mp h1)]
    rfl

/-- As many signatures as the channel asks for. -/
theorem verifyChannelMultiSig_length {k : ChannelId} {u : Unit}
    (h : verifyChannelMultiSig k proof txHash c opIndex = .ok u) :
    proof.signatures.length = c.transferThreshold k := by
  obtain ⟨state, h1, h2⟩ := bind_ok h
  obtain ⟨_, h3, -⟩ := bind_ok h2
  have hlookup : c.channels.lookup k = some state := okOr_ok.mp h1
  rw [Channels.transferThreshold, hlookup]
  exact not_not.mp (failIf_ok.mp h3)

theorem encodedLength_eq {threshold : Nat} (h : proof.signatures.length = threshold) :
    calculateChannelMultiSigProofByteSize threshold = proof.encodedLength := by
  rw [← h]
  rfl

/-- An accepted proof has the size the thresholds ask for. -/
theorem proofSize_of_verify {deferred : DeferredProofs}
    (hv : op.verify opIndex txHash (s.helper eras) = .ok deferred) :
    op.operation.proofSize s.channels.thresholdSource = op.proofEncodedLength := by
  cases op with
  | channelConfig op proof =>
    obtain ⟨_, h1, -⟩ := bind_ok hv
    exact encodedLength_eq (ChannelConfigOp.verify_length (lift_ok.mp h1))
  | channelWithdraw op proof | channelTransfer op proof =>
    obtain ⟨_, h1, -⟩ := bind_ok hv
    obtain ⟨_, h2, -⟩ := bind_ok (lift_ok.mp h1)
    exact encodedLength_eq (verifyChannelMultiSig_length (mapError_ok.mp h2))
  | _ => rfl

/-! ## Gas without the state

An operation is priced by the threshold of its channel, and an accepted one has exactly as many
signatures. So wherever it is accepted, it costs the same. -/

/-- The prediction stays with the channels. -/
theorem follows_of_step {c' : Channels} {slot : Nat} (ht : t.Follows c)
    (h : ChannelStep slot c (some op) c') : (t.apply op.operation).Follows c' := by
  cases h with
  | inscribed hv => exact ht.inscribed _ _
  | configured hv => exact ht.configured _ _
  | kept hi hc hkept =>
    have happly : t.apply op.operation = t := by
      cases op with
      | channelInscribe op proof => cases hi
      | channelConfig op proof => cases hc
      | _ => rfl
    rw [happly]
    exact ht.kept hkept

/-- The prediction finds the gas and the size of the proof, and stays with the channels. -/
theorem estimate_step {r' : TxRun} {op : SignedOp × Nat} (ht : t.Follows r.state.channels)
    (h : TxRun.step eras config txHash r op = .ok r') :
    (t.apply op.1.operation).Follows r'.state.channels ∧
      Ops.gasStep config.gasProfile (t, r.executionGas) op.1.operation =
        .ok (t.apply op.1.operation, r'.executionGas) ∧
      op.1.operation.proofSize t.source = op.1.proofEncodedLength := by
  obtain ⟨deferred, gas, events, hverify, hgas, hsum, happly, -⟩ := TxRun.step_ok h
  refine ⟨follows_of_step ht (.of_apply hverify happly), ?_, ?_⟩
  · rw [← Op.executionGasFrom_channels, ← ht.source] at hgas
    exact ok_bind (okOr_ok.mpr hgas) (ok_bind (okOr_ok.mpr hsum) rfl)
  · rw [ht.source]
    exact proofSize_of_verify hverify

theorem estimate_run {ops : List (SignedOp × Nat)} {r' : TxRun} (ht : t.Follows r.state.channels)
    (h : ops.foldlM (TxRun.step eras config txHash) r = .ok r') :
    ∃ t', (ops.map (·.1.operation)).foldlM (Ops.gasStep config.gasProfile) (t, r.executionGas) =
        .ok (t', r'.executionGas) ∧
      ∀ total, (ops.map (·.1.operation)).foldl Ops.sizeStep (t, total) =
        (t', total + (ops.map (·.1.proofEncodedLength)).sum) := by
  induction ops generalizing r t with
  | nil =>
    cases foldlM_nil_ok h
    exact ⟨t, rfl, fun total => rfl⟩
  | cons op ops ih =>
    obtain ⟨r1, h1, h2⟩ := foldlM_cons_ok h
    obtain ⟨hfollows, hgas, hsize⟩ := estimate_step ht h1
    grind [ok_bind, Ops.sizeStep]

theorem getGasPrices_of_ops {tx : SignedOps} (h : s.tryApplyTxOperations eras tx = .ok r) :
    r.state.getGasPrices = s.getGasPrices := by
  obtain ⟨_, -, h1⟩ := bind_ok h
  refine foldlM_invariant (I := fun r : TxRun => r.state.getGasPrices = s.getGasPrices) h1 rfl ?_
  intro op _ r r' hr hstep
  rw [← hr, LedgerState.getGasPrices, (TxRun.step_effect hstep).cryptarchia]
  rfl

variable {tx : SignedOps} {g : GasAndFees} {events : List TxEvent} {deferred : DeferredProofs}

theorem estimate_of_accepted
    (h : s.tryApplyTransaction eras tx = .ok (s', g, events, deferred)) :
    let context := (s.txContext (configForSlot eras s.slot).gasProfile).gasContext
    tx.toOps.executionGasConsumption context = .ok g.executionGas ∧
      tx.toOps.storageGasConsumption context = .ok g.storageGas ∧
      tx.toOps.totalGasCost context = .ok g.feeBurned := by
  intro context
  obtain ⟨r, h1, rfl, -, hfee, -, htrunc, hgasUsed, hstored, -⟩ :=
    LedgerState.tryApplyTransaction_ok.mp h
  have hprices : r.state.getGasPrices = context.gasPrices := getGasPrices_of_ops h1
  rw [hprices] at hfee
  have hword : g.feeBurned < 2 ^ 64 := by
    unfold truncate at htrunc
    omega
  obtain ⟨_, -, hrun⟩ := bind_ok h1
  obtain ⟨t', hgas, hsize⟩ := estimate_run (RunningThresholds.Follows.new s.channels _ _) hrun
  have hops : tx.ops.zipIdx.map (·.1.operation) = tx.toOps.ops := map_zipIdx_fst _ _
  have hlengths : tx.ops.zipIdx.map (·.1.proofEncodedLength) =
      tx.ops.map SignedOp.proofEncodedLength := map_zipIdx_fst _ _
  rw [hops] at hgas hsize
  rw [hlengths] at hsize
  have hexecution : tx.toOps.executionGasConsumption context = .ok g.executionGas :=
    hgasUsed ▸ ok_bind hgas rfl
  have hstorage : tx.toOps.storageGasConsumption context = .ok g.storageGas := by
    have hfold : tx.toOps.ops.foldl Ops.sizeStep (.new context, 0) =
        (t', 0 + (tx.ops.map SignedOp.proofEncodedLength).sum) := hsize 0
    rw [Ops.storageGasConsumption, Ops.minimumSignedTransactionSize, hfold, Nat.zero_add, ← hstored]
    rfl
  refine ⟨hexecution, hstorage, ok_bind hexecution (ok_bind
    (okOr_ok.mpr (checkedMul_eq_some.mpr ⟨rfl, ?_⟩)) (ok_bind (ok_bind hstorage
      (okOr_ok.mpr (checkedMul_eq_some.mpr ⟨rfl, ?_⟩)))
        (okOr_ok.mpr (checkedAdd_eq_some.mpr ⟨hfee.symm, hword⟩))))⟩
  all_goals grind

/-- What is found before the transaction is signed is what the ledger charges. -/
theorem fee_estimate_exact
    (h : s.tryApplyTransaction eras tx = .ok (s', g, events, deferred)) :
    let context := (s.txContext (configForSlot eras s.slot).gasProfile).gasContext
    tx.toOps.executionGasConsumption context = .ok g.executionGas ∧
      tx.toOps.storageGasConsumption context = .ok g.storageGas ∧
      tx.toOps.totalGasCost context = .ok g.feeBurned :=
  estimate_of_accepted h

omit [Primitives] in
theorem firstSignature_sorted :
    (([(0, 0)] : List (Nat × Ed25519Signature)).map (·.1)).Pairwise (· < ·) :=
  List.pairwise_singleton _ _

/-- Creates a channel, gives it two keys, and configures it again. -/
def configureTwice : SignedOps :=
  ⟨0, [.channelInscribe ⟨3, [1], 0, 4⟩ 0,
    .channelConfig ⟨3, 0, ⟨[4, 5], by decide, by decide⟩, 0, 0, 2, 1, Nat.two_pos,
      Nat.one_pos, by decide⟩ ⟨[(0, 0)], firstSignature_sorted⟩,
    .channelConfig ⟨3, 1, ⟨[4, 5], by decide, by decide⟩, 0, 0, 1, 1, Nat.one_pos,
      Nat.one_pos, by decide⟩ ⟨[(0, 0), (1, 0)], by decide⟩,
    .transfer ⟨.single 0, .empty⟩ 0]⟩

omit [Primitives] in
theorem fee_estimate_configureTwice :
    letI := Primitives.plain
    ∃ s' g events deferred,
      (LedgerState.fromUtxos [⟨0, 0, ⟨1001, 7⟩⟩] .small 50 []).tryApplyTransaction (.single .small)
        configureTwice = .ok (s', g, events, deferred) ∧ g = ⟨5, 14, 19, 982⟩ ∧
      configureTwice.toOps.totalGasCost ((LedgerState.fromUtxos [⟨0, 0, ⟨1001, 7⟩⟩] .small 50
        []).txContext Config.small.gasProfile).gasContext = .ok 19 := by
  let _ := Primitives.plain
  obtain ⟨⟨s', g, events, deferred⟩, h, hg⟩ := exists_ok
    (x := (LedgerState.fromUtxos [⟨0, 0, ⟨1001, 7⟩⟩] .small 50 []).tryApplyTransaction
      (.single .small) configureTwice) (·.2.1 = ⟨5, 14, 19, 982⟩) (by decide +kernel)
  obtain ⟨-, -, htotal⟩ := fee_estimate_exact h
  subst hg
  exact ⟨s', _, events, deferred, h, rfl, htotal⟩

/-! ## The builder prices what the ledger accepts

The builder looks for the thresholds of the channels that withdraw or transfer in the state before
the transaction, and a channel that the transaction itself creates is not there. -/

/-- The price does not depend on the digest. -/
theorem totalGasCost_digest [Leaves] (hlen : EncodingLengths) (digest digest' : ForkDigest)
    (ops : List Op) (c : OpsGasContext) :
    Ops.totalGasCost ⟨digest, ops⟩ c = Ops.totalGasCost ⟨digest', ops⟩ c := by
  have hsize : Ops.minimumSignedTransactionSize ⟨digest, ops⟩ c =
      Ops.minimumSignedTransactionSize ⟨digest', ops⟩ c := by
    rw [Ops.minimumSignedTransactionSize, hlen.ops, Ops.minimumSignedTransactionSize, hlen.ops]
    rfl
  unfold Ops.totalGasCost Ops.storageGasCost Ops.storageGasConsumption
  rw [hsize]
  rfl

omit [Primitives] in
/-- The context has the threshold of every channel. -/
theorem lookup_txContext (s : LedgerState) (profile : GasProfile) (k : ChannelId) :
    (s.txContext profile).gasContext.transferThresholds.lookup k ≠ none ↔
      (s.channels.channelState k).isSome = true := by
  simp [LedgerState.txContext, OpsGasContext.fromChannels, Map.lookup_mapValues,
    Channels.channelState, Option.isSome_iff_ne_none]

/-- The builder can price an accepted transaction exactly if the channels that withdraw or transfer
are there before. -/
theorem priced_iff_channels_exist [Leaves] (hlen : EncodingLengths) {b funded : MantleTxBuilder}
    (hops : funded.ops = b.ops)
    (hin : b.pendingTransfer.inputs.ids.length ≤ funded.pendingTransfer.inputs.ids.length)
    (hout : b.pendingTransfer.outputs.notes.length ≤ funded.pendingTransfer.outputs.notes.length)
    {tx : SignedOps} (hbuild : funded.build tx.forkDigest = .ok tx.toOps) {g : GasAndFees}
    {events : List TxEvent} {deferred : DeferredProofs}
    (h : s.tryApplyTransaction eras tx = .ok (s', g, events, deferred)) :
    (∃ cost, b.minimumGasCost (s.txContext (configForSlot eras s.slot).gasProfile) = .ok cost) ↔
      ∀ op ∈ b.ops.items, ∀ k, MantleTxBuilder.signingChannel op = some k →
        (s.channels.channelState k).isSome = true := by
  obtain ⟨hlength, htx⟩ := MantleTxBuilder.build_ok_iff.mp hbuild
  obtain ⟨-, -, hcost⟩ := estimate_of_accepted h
  rw [← htx, totalGasCost_digest hlen _ 0] at hcost
  obtain ⟨hle, hpriced⟩ := MantleTxBuilder.built_mono hlen hops hin hout 0
    (s.txContext (configForSlot eras s.slot).gasProfile).gasContext
  obtain ⟨cost, -, hcost⟩ := hpriced _ hcost
  simp only [← lookup_txContext s (configForSlot eras s.slot).gasProfile]
  constructor
  · rintro ⟨cost, hc⟩
    exact (MantleTxBuilder.minimumGasCost_ok_iff.mp hc).1
  · intro hknown
    exact ⟨cost, MantleTxBuilder.minimumGasCost_ok_iff.mpr ⟨hknown, hle.trans hlength, hcost⟩⟩

/-- A deposit in a channel and a withdrawal of its note. -/
def depositAndWithdraw (k : ChannelId) : List SignedOp :=
  [.channelDeposit ⟨k, .single 9001, []⟩ 0,
    .channelWithdraw ⟨k, .single 144018000⟩ ⟨[(0, 0)], firstSignature_sorted⟩]

/-- A ledger, a builder, the funded builder, and the ledger after it. -/
def funding (ops : List SignedOp) : Except Unit (LedgerState × MantleTxBuilder × MantleTxBuilder ×
    LedgerState × GasAndFees × List TxEvent × DeferredProofs) := do
  let outputs := ⟨[⟨100, 7⟩, ⟨500, 7⟩, ⟨9000, 7⟩], by decide⟩
  let tx : SignedOps := ⟨0, ops ++ [.transfer ⟨.single 9002, .empty⟩ 0]⟩
  let s ← (LedgerState.fromGenesisTx { genesisWithService with transfer := ⟨.empty, outputs⟩ }
    .small).mapError fun _ => ()
  let note ← okOr (s.utxos.get 9002) ()
  let b ← (MantleTxBuilder.new.extendOps (ops.map SignedOp.operation)).mapError fun _ => ()
  let funded ← (b.extendLedgerInputs [note]).mapError fun _ => ()
  failIf (funded.build 0 ≠ .ok tx.toOps) ()
  let applied ← (s.tryApplyTransaction (.single .small) tx).mapError fun _ => ()
  return (s, b, funded, applied)

omit [Primitives] in
theorem priced_iff_channels_exist_genesis :
    letI := Primitives.sized
    ∃ r, funding (depositAndWithdraw 3) = .ok r ∧
      ∃ cost, r.2.1.minimumGasCost (r.1.txContext Config.small.gasProfile) = .ok cost := by
  let _ := Primitives.sized
  let _ := Leaves.plain
  obtain ⟨r, h, hknown⟩ := exists_ok (x := funding (depositAndWithdraw 3))
    (fun r => r.2.1.ops.items.all (fun op => ((MantleTxBuilder.signingChannel op).all
      fun k => (r.1.channels.channelState k).isSome)) = true) (by decide +kernel)
  refine ⟨r, h, ?_⟩
  obtain ⟨s, -, h1⟩ := bind_ok h
  obtain ⟨note, -, h2⟩ := bind_ok h1
  obtain ⟨b, -, h3⟩ := bind_ok h2
  obtain ⟨funded, hfunded, h4⟩ := bind_ok h3
  obtain ⟨_, hbuild, h5⟩ := bind_ok h4
  obtain ⟨applied, happlied, h6⟩ := bind_ok h5
  cases h6
  obtain ⟨hops, -, hids, houts⟩ := MantleTxBuilder.extendLedgerInputs_ok (mapError_ok.mp hfunded)
  refine (priced_iff_channels_exist encodingLengths_sized hops ?_ ?_
    (not_not.mp (failIf_ok.mp hbuild)) (mapError_ok.mp happlied)).mpr fun op hop k hk => ?_
  · rw [hids, List.length_append]
    exact Nat.le_add_right _ _
  · rw [houts]
  · have hall := List.all_eq_true.mp hknown op hop
    rw [hk] at hall
    exact hall

omit [Primitives] in
/-- A withdrawal from a channel that the transaction creates is not priced. -/
theorem createdChannel_not_priced :
    letI := Primitives.sized
    ∃ r, funding (.channelInscribe ⟨5, [1], 0, 4⟩ 0 :: depositAndWithdraw 5) = .ok r ∧
      r.2.1.minimumGasCost (r.1.txContext Config.small.gasProfile) =
        .error (.error (.missingTransferThreshold 5)) :=
  letI := Primitives.sized
  exists_ok _ (by decide +kernel)

end Logos.Ledger
