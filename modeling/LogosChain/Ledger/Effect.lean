import LogosChain.Ledger.Block

/-!
# What operations and blocks do to the notes

`OpEffect` says once what an accepted operation of any kind does to the notes, to their holders and
to the value that the ledger holds. What holds along every transaction and every block is derived
from it.
-/

namespace Logos

open Base

namespace Mantle.SignedOp

/-- The notes that an operation spends. -/
def spent : SignedOp → List NoteId
  | .channelDeposit op _ => op.inputs.ids
  | .channelTransfer op _ => op.inputs.ids
  | .transfer op _ => op.inputs.ids
  | _ => []

/-- The notes that an operation spends or takes out of a channel. -/
def inputs : SignedOp → List NoteId
  | .channelWithdraw op _ => op.inputs.ids
  | op => op.spent

theorem spent_subset_inputs (op : SignedOp) : op.spent ⊆ op.inputs := by
  cases op <;> first | exact List.Subset.refl _ | exact List.nil_subset _

end Mantle.SignedOp

namespace Ledger

open Mantle

variable [Primitives]

namespace LedgerState

/-- The notes that an operation makes. -/
def created (s : LedgerState) : SignedOp → List Utxo
  | .channelDeposit op _ => op.newUtxos ((op.outputs s.utxos).toOption.getD [])
  | .channelTransfer op _ => op.newUtxos
  | .leaderClaim op _ => [op.utxo s.mantleLedger.leaders.rewardAmount]
  | .transfer op _ => op.newUtxos
  | .claimPowReward op => [op.utxo s.mantleLedger.pow.reward.epochReward]
  | _ => []

/-- The rewards of leaders and the pool of the puzzles. -/
def pools (s : LedgerState) : Nat :=
  s.mantleLedger.leaders.claimableRewards + s.mantleLedger.pow.reward.rewardPool

end LedgerState

/-- What the execution of each kind of operation goes through. -/
inductive Applied (s : LedgerState) (config : Config) (txHash : TxHash) (balance : Int) :
    SignedOp → LedgerState → Int → List TxEvent → Prop where
  | channelInscribe (op : InscriptionOp) (proof : Ed25519Signature) :
      Applied s config txHash balance (.channelInscribe op proof)
        (s.withChannels (op.execute s.channels s.slot)) balance []
  | channelConfig (op : ChannelConfigOp) (proof : ChannelMultiSigProof) :
      Applied s config txHash balance (.channelConfig op proof)
        (s.withChannels (op.execute s.channels s.slot)) balance []
  | channelDeposit {op : DepositOp} (proof : ZkSignature) {channels : Channels} {utxos : Utxos}
      {events : List TxEvent}
      (h : op.execute s.channels s.utxos txHash = .ok (channels, utxos, events)) :
      Applied s config txHash balance (.channelDeposit op proof)
        ((s.withChannels channels).withUtxos utxos) balance events
  | channelWithdraw {op : ChannelWithdrawOp} (proof : ChannelMultiSigProof) {channels : Channels}
      (h : op.execute s.channels = .ok channels) :
      Applied s config txHash balance (.channelWithdraw op proof) (s.withChannels channels)
        balance []
  | channelTransfer {op : ChannelTransferOp} (proof : ChannelMultiSigProof) {channels : Channels}
      {utxos : Utxos} (h : op.execute s.channels s.utxos = .ok (channels, utxos)) :
      Applied s config txHash balance (.channelTransfer op proof)
        ((s.withChannels channels).withUtxos utxos) balance []
  | sdpDeclare {op : SDPDeclareOp} (proof : ZkAndEd25519Proof) {sdp : SdpLedger}
      (h : s.mantleLedger.sdp.tryApplySdpDeclaration s.utxos op config.sdpConfig = .ok sdp) :
      Applied s config txHash balance (.sdpDeclare op proof) (s.withSdp sdp) balance []
  | sdpActive {op : SDPActiveOp} (proof : ZkSignature) {sdp : SdpLedger}
      (h : s.mantleLedger.sdp.applyActiveMsg op config.sdpConfig = .ok sdp) :
      Applied s config txHash balance (.sdpActive op proof) (s.withSdp sdp) balance []
  | sdpWithdraw {op : SDPWithdrawOp} (proof : ZkSignature) {sdp : SdpLedger}
      (h : s.mantleLedger.sdp.applyWithdrawnMsg op config.sdpConfig = .ok sdp) :
      Applied s config txHash balance (.sdpWithdraw op proof) (s.withSdp sdp) balance []
  | leaderClaim (op : LeaderClaimOp) (proof : LeaderClaimProof) :
      Applied s config txHash balance (.leaderClaim op proof) (s.applyLeaderClaim op txHash).1
        balance (s.applyLeaderClaim op txHash).2
  | transfer {op : TransferOp} (proof : ZkSignature) {b : Int} {utxos : Utxos}
      (hb : op.balance s.utxos = .ok b) (h : op.execute s.utxos = .ok utxos) :
      Applied s config txHash balance (.transfer op proof) (s.withUtxos utxos) (balance + b) []
  | claimPowReward {op : ClaimPowRewardOp} {c : ClaimPowRewardOp.ExecutionContext}
      {events : List TxEvent} (h : op.execute s.claimPowContext txHash = .ok (c, events)) :
      Applied s config txHash balance (.claimPowReward op)
        ((s.withUtxos c.utxos).withPow { s.mantleLedger.pow with reward :=
          { s.mantleLedger.pow.reward with
            nullifiers := c.nullifiers, rewardPool := c.rewardPool } }) balance events

theorem LedgerState.tryApplyOp_ok {s s' : LedgerState} {op : SignedOp} {config : Config}
    {txHash : TxHash} {balance balance' : Int} {events : List TxEvent}
    (h : s.tryApplyOp op config txHash balance = .ok (s', balance', events)) :
    Applied s config txHash balance op s' balance' events := by
  cases op with
  | channelInscribe op proof =>
    obtain ⟨_, -, h1⟩ := bind_ok h
    cases h1
    exact .channelInscribe op proof
  | channelConfig op proof =>
    cases h
    exact .channelConfig op proof
  | channelDeposit op proof =>
    obtain ⟨_, -, h1⟩ := bind_ok h
    obtain ⟨⟨channels, utxos, _⟩, h2, h3⟩ := bind_ok h1
    cases h3
    exact .channelDeposit proof (lift_ok.mp h2)
  | channelWithdraw op proof =>
    obtain ⟨channels, h1, h2⟩ := bind_ok h
    cases h2
    exact .channelWithdraw proof (lift_ok.mp h1)
  | channelTransfer op proof =>
    obtain ⟨⟨channels, utxos⟩, h1, h2⟩ := bind_ok h
    cases h2
    exact .channelTransfer proof (lift_ok.mp h1)
  | sdpDeclare op proof =>
    obtain ⟨sdp, h1, h2⟩ := bind_ok h
    cases h2
    exact .sdpDeclare proof (wrap_ok.mp h1)
  | sdpActive op proof =>
    obtain ⟨sdp, h1, h2⟩ := bind_ok h
    cases h2
    exact .sdpActive proof (wrap_ok.mp h1)
  | sdpWithdraw op proof =>
    obtain ⟨sdp, h1, h2⟩ := bind_ok h
    cases h2
    exact .sdpWithdraw proof (wrap_ok.mp h1)
  | leaderClaim op proof =>
    cases h
    exact .leaderClaim op proof
  | transfer op proof =>
    obtain ⟨b, h1, h2⟩ := bind_ok h
    obtain ⟨utxos, h3, h4⟩ := bind_ok h2
    obtain ⟨_, h5, h6⟩ := bind_ok h4
    cases h6
    rw [← (signedWord_eq_some.mp (okOr_ok.mp h5)).1]
    exact .transfer proof (lift_ok.mp h1) (lift_ok.mp h3)
  | claimPowReward op =>
    obtain ⟨⟨_, _⟩, h1, h2⟩ := bind_ok h
    cases h2
    obtain ⟨⟨c, _⟩, h3, h4⟩ := bind_ok h1
    cases h4
    exact .claimPowReward (wrap_ok.mp h3)

/-- What an accepted operation does to notes and value. -/
structure OpEffect (s : LedgerState) (op : SignedOp) (balance : Int) (s' : LedgerState)
    (balance' : Int) : Prop where
  /-- No input is a service note. -/
  unlocked : ∀ n ∈ op.inputs, s.serviceNotes.lookup n = none
  exchange : s.utxos.Fresh (s.created op) → Exchange s.utxos s'.utxos op.spent (s.created op)
  /-- The notes that are made are paid for by those that are spent, by a pool or by the balance. -/
  paid : s.mantleLedger.leaders.claimableRewards < 2 ^ 64 →
    ((op.spent.map s.utxos.valueOf).sum : Nat) + (s.pools : Nat) + balance =
      (((s.created op).map (·.note.value)).sum : Nat) + (s'.pools : Nat) + balance'
  claimable : s.mantleLedger.leaders.claimableRewards < 2 ^ 64 →
    s'.mantleLedger.leaders.claimableRewards ≤ s.mantleLedger.leaders.claimableRewards
  channelStates : ∀ k, (s.channels.channelState k).isSome → (s'.channels.channelState k).isSome
  /-- A channel gets only notes that are made, and loses those that are spent. -/
  channelNotes : ∀ n k, s'.channels.channelNotes.lookup n = some k →
    (n ∈ (s.created op).map Utxo.id ∧ (s.channels.channelState k).isSome) ∨
      (n ∉ op.spent ∧ s.channels.channelNotes.lookup n = some k)
  /-- A note that starts to serve is unspent and in no channel. -/
  serviceNotes : ∀ n e, s'.serviceNotes.lookup n = some e →
    (∃ e0, s.serviceNotes.lookup n = some e0 ∧ e0.note = e.note) ∨
      (n ∉ op.spent ∧ s.channels.channelNotes.lookup n = none ∧
        ∃ u, s.utxos.get n = some u ∧ u.note = e.note)
  /-- Besides the notes the operation leaves the state of the leader election as it is. -/
  cryptarchia : s'.cryptarchiaLedger = { s.cryptarchiaLedger with utxos := s'.utxos }

namespace OpEffect

variable {s s' : LedgerState} {op : SignedOp} {balance balance' : Int} {eras : EraScheduledConfig}
  {config : Config} {txHash : TxHash} {opIndex : Nat} {deferred : DeferredProofs}
  {events : List TxEvent} {channels : Channels} {utxos : Utxos} {p : ZkSignature × ZkSignInputs}
  {proof : ChannelMultiSigProof}

theorem not_input (he : OpEffect s op balance s' balance') {n : NoteId} {e : ServiceNote}
    (hn : s.serviceNotes.lookup n = some e) : n ∉ op.inputs := by
  intro hin
  rw [he.unlocked n hin] at hn
  cases hn

theorem of_untouched (hin : op.inputs = []) (hsp : op.spent = []) (hcr : s.created op = [])
    (hl : s'.cryptarchiaLedger = s.cryptarchiaLedger)
    (hr : s'.mantleLedger.leaders = s.mantleLedger.leaders)
    (hp : s'.mantleLedger.pow = s.mantleLedger.pow)
    (hk : ∀ k, (s.channels.channelState k).isSome → (s'.channels.channelState k).isSome)
    (hc : s'.channels.channelNotes = s.channels.channelNotes)
    (hs : s'.serviceNotes = s.serviceNotes) : OpEffect s op balance s' balance where
  unlocked := by simp [hin]
  exchange := by grind [LedgerState.utxos, Exchange.refl]
  paid := by simp [hsp, hcr, LedgerState.pools, hr, hp]
  claimable := by simp [hr]
  channelStates := hk
  channelNotes := fun n k h => .inr ⟨by simp [hsp], hc ▸ h⟩
  serviceNotes := fun n e h => .inl ⟨e, hs ▸ h, rfl⟩
  cryptarchia := by rw [LedgerState.utxos, hl]

theorem of_setChannel (hin : op.inputs = []) (hsp : op.spent = []) (hcr : s.created op = [])
    (k : ChannelId) (c : ChannelState) :
    OpEffect s op balance (s.withChannels (s.channels.setChannel k c)) balance := by
  refine of_untouched hin hsp hcr rfl rfl rfl (fun k' hk' => ?_) rfl rfl
  show ((s.channels.setChannel k c).channelState k').isSome
  rw [Channels.channelState_setChannel]
  split
  · rfl
  · exact hk'

theorem of_deposit {op : DepositOp} {proof : ZkSignature}
    (hv : op.verify proof s.channels s.serviceNotes s.utxos txHash = .ok p)
    (h : op.execute s.channels s.utxos txHash = .ok (channels, utxos, events)) :
    OpEffect s (.channelDeposit op proof) balance ((s.withChannels channels).withUtxos utxos)
      balance := by
  obtain ⟨⟨c, hc⟩, hfree⟩ := DepositOp.verify_ok hv
  obtain ⟨notes, spent, hnotes, hspent, hreg, rfl⟩ := DepositOp.execute_ok h
  obtain ⟨hstates, -, hlookup⟩ := Channels.registerAll_ok hreg
  have hcr : s.created (.channelDeposit op proof) = op.newUtxos notes := by
    simp [LedgerState.created, hnotes, Except.toOption]
  refine ⟨fun n hn => (hfree n hn).1, fun hf => ?_, fun _ => ?_, fun _ => le_rfl, fun k hk => ?_,
    fun n k hn => ?_, fun n e he => .inl ⟨e, he, rfl⟩, rfl⟩
  · rw [hcr] at hf ⊢
    exact Inputs.exchange hspent hf
  · rw [hcr, DepositOp.value_newUtxos hnotes]
    rfl
  · show (channels.channelState k).isSome
    rw [Channels.channelState, hstates]
    exact hk
  · change channels.channelNotes.lookup n = some k at hn
    rw [hlookup] at hn
    rw [hcr]
    split at hn
    · grind
    · refine .inr ⟨fun hs => ?_, hn⟩
      rw [(hfree n hs).2] at hn
      cases hn

theorem of_channelWithdraw {op : ChannelWithdrawOp}
    (hv : op.verify proof s.channels s.serviceNotes s.utxos txHash opIndex = .ok ())
    (h : op.execute s.channels = .ok channels) :
    OpEffect s (.channelWithdraw op proof) balance (s.withChannels channels) balance := by
  obtain ⟨hstates, -, hlookup⟩ := Channels.unregisterAll_ok (mapError_ok.mp h)
  refine ⟨ChannelWithdrawOp.verify_ok hv, fun _ => .refl _, fun _ => rfl, fun _ => le_rfl,
    fun k hk => ?_, fun n k hn => ?_, fun n e he => .inl ⟨e, he, rfl⟩, rfl⟩
  · show (channels.channelState k).isSome
    rw [Channels.channelState, hstates]
    exact hk
  · change channels.channelNotes.lookup n = some k at hn
    rw [hlookup] at hn
    split at hn
    · cases hn
    · exact .inr ⟨List.not_mem_nil, hn⟩

theorem of_channelTransfer {op : ChannelTransferOp}
    (hv : op.verify proof s.channels s.serviceNotes s.utxos txHash opIndex = .ok ())
    (h : op.execute s.channels s.utxos = .ok (channels, utxos)) :
    OpEffect s (.channelTransfer op proof) balance ((s.withChannels channels).withUtxos utxos)
      balance := by
  obtain ⟨⟨c, hc⟩, hfree, hvalue⟩ := ChannelTransferOp.verify_ok hv
  obtain ⟨spent, released, hspent, hrel, hreg, rfl⟩ := ChannelTransferOp.execute_ok h
  obtain ⟨hstates, -, hlookup⟩ := Channels.unregisterAll_ok hrel
  obtain ⟨hstates', -, hlookup'⟩ := Channels.registerAll_ok hreg
  refine ⟨hfree, fun hf => Inputs.exchange hspent hf, fun _ => ?_, fun _ => le_rfl,
    fun k hk => ?_, fun n k hn => ?_, fun n e he => .inl ⟨e, he, rfl⟩, rfl⟩
  · show ((op.inputs.ids.map s.utxos.valueOf).sum : Nat) + (s.pools : Int) + balance =
      ((op.newUtxos.map (·.note.value)).sum : Nat) + (s.pools : Int) + balance
    rw [hvalue]
  · show (channels.channelState k).isSome
    rw [Channels.channelState, hstates', hstates]
    exact hk
  · change channels.channelNotes.lookup n = some k at hn
    rw [hlookup', hlookup] at hn
    split at hn
    · rename_i hmem
      cases hn
      exact .inl ⟨hmem, by rw [hc]; rfl⟩
    · split at hn
      · cases hn
      · rename_i hs
        exact .inr ⟨hs, hn⟩

theorem of_sdpDeclare {op : SDPDeclareOp} {proof : ZkAndEd25519Proof} {sdp : SdpLedger}
    (hfree : s.channels.channelNotes.lookup op.serviceNoteId = none)
    (h : s.mantleLedger.sdp.tryApplySdpDeclaration s.utxos op config.sdpConfig = .ok sdp) :
    OpEffect s (.sdpDeclare op proof) balance (s.withSdp sdp) balance := by
  obtain ⟨u, hu, hlock⟩ := SdpLedger.tryApplySdpDeclaration_ok h
  refine ⟨by simp [SignedOp.inputs, SignedOp.spent], fun _ => .refl _, fun _ => rfl,
    fun _ => le_rfl, fun k hk => hk, fun n k hn => .inr ⟨List.not_mem_nil, hn⟩, fun n e he => ?_,
    rfl⟩
  rcases ServiceNotes.lookup_lock hlock he with h1 | ⟨rfl, hnote⟩
  · exact .inl h1
  · exact .inr ⟨List.not_mem_nil, hfree, u, hu, hnote.symm⟩

theorem of_leaderClaim (op : LeaderClaimOp) (proof : LeaderClaimProof) (txHash : TxHash) :
    OpEffect s (.leaderClaim op proof) balance (s.applyLeaderClaim op txHash).1 balance := by
  have hle := s.mantleLedger.leaders.rewardAmount_le
  have hleft : s.mantleLedger.leaders.claimableRewards < 2 ^ 64 →
      (s.applyLeaderClaim op txHash).1.mantleLedger.leaders.claimableRewards =
        s.mantleLedger.leaders.claimableRewards - s.mantleLedger.leaders.rewardAmount :=
    fun hb => wrappingSub_of_le hle hb
  refine ⟨by simp [SignedOp.inputs, SignedOp.spent], fun hf => Utxos.exchange hf, fun hb => ?_,
    fun hb => ?_, fun k hk => hk, fun n k hn => .inr ⟨List.not_mem_nil, hn⟩,
    fun n e he => .inl ⟨e, he, rfl⟩, rfl⟩
  · show (0 : Int) + (s.pools : Nat) + balance =
      ((s.mantleLedger.leaders.rewardAmount + 0 : Nat) : Int) +
        ((s.applyLeaderClaim op txHash).1.mantleLedger.leaders.claimableRewards +
          s.mantleLedger.pow.reward.rewardPool : Nat) + balance
    rw [hleft hb, LedgerState.pools]
    omega
  · rw [hleft hb]
    exact Nat.sub_le _ _

theorem of_transfer {op : TransferOp} {proof : ZkSignature} {b : Int}
    (hv : op.verify proof s.serviceNotes s.channels s.utxos txHash = .ok p)
    (hb : op.balance s.utxos = .ok b) (h : op.execute s.utxos = .ok utxos) :
    OpEffect s (.transfer op proof) balance (s.withUtxos utxos) (balance + b) := by
  have hfree := TransferOp.verify_ok hv
  obtain ⟨spent, hspent, rfl⟩ := TransferOp.execute_ok h
  refine ⟨fun n hn => (hfree n hn).1, fun hf => Inputs.exchange hspent hf, fun _ => ?_,
    fun _ => le_rfl, fun k hk => hk, fun n k hn => .inr ⟨fun hs => ?_, hn⟩,
    fun n e he => .inl ⟨e, he, rfl⟩, rfl⟩
  · show ((op.inputs.ids.map s.utxos.valueOf).sum : Nat) + (s.pools : Int) + balance =
      ((op.newUtxos.map (·.note.value)).sum : Nat) + (s.pools : Int) + (balance + b)
    rw [TransferOp.balance_ok hb]
    omega
  · change s.channels.channelNotes.lookup n = some k at hn
    rw [(hfree n hs).2] at hn
    cases hn

theorem of_claimPow {op : ClaimPowRewardOp} {c : ClaimPowRewardOp.ExecutionContext}
    {reward : RewardPowState} (h : op.execute s.claimPowContext txHash = .ok (c, events))
    (hr : reward.rewardPool = c.rewardPool) :
    OpEffect s (.claimPowReward op) balance
      ((s.withUtxos c.utxos).withPow { s.mantleLedger.pow with reward := reward }) balance := by
  obtain ⟨hpool, hutxos⟩ := ClaimPowRewardOp.execute_ok h
  refine ⟨by simp [SignedOp.inputs, SignedOp.spent], fun hf => ?_, fun _ => ?_, fun _ => le_rfl,
    fun k hk => hk, fun n k hn => .inr ⟨List.not_mem_nil, hn⟩, fun n e he => .inl ⟨e, he, rfl⟩, rfl⟩
  · show Exchange s.utxos c.utxos [] _
    rw [hutxos]
    exact Utxos.exchange hf
  · change s.mantleLedger.pow.reward.rewardPool =
      s.mantleLedger.pow.reward.epochReward + c.rewardPool at hpool
    show (0 : Int) + (s.pools : Nat) + balance =
      ((s.mantleLedger.pow.reward.epochReward + 0 : Nat) : Int) +
        ((s.mantleLedger.leaders.claimableRewards + reward.rewardPool : Nat) : Int) + balance
    rw [LedgerState.pools, hr]
    omega

theorem of_apply (hv : op.verify opIndex txHash (s.helper eras) = .ok deferred)
    (h : s.tryApplyOp op config txHash balance = .ok (s', balance', events)) :
    OpEffect s op balance s' balance' := by
  cases LedgerState.tryApplyOp_ok h with
  | channelInscribe | channelConfig => exact of_setChannel rfl rfl rfl _ _
  | channelDeposit _ hx =>
    obtain ⟨p, hv1, -⟩ := bind_ok hv
    exact of_deposit (lift_ok.mp hv1) hx
  | channelWithdraw _ hx =>
    obtain ⟨_, hv1, -⟩ := bind_ok hv
    exact of_channelWithdraw (lift_ok.mp hv1) hx
  | channelTransfer _ hx =>
    obtain ⟨_, hv1, -⟩ := bind_ok hv
    exact of_channelTransfer (lift_ok.mp hv1) hx
  | sdpDeclare _ hx =>
    obtain ⟨_, -, hv1⟩ := bind_ok hv
    obtain ⟨_, -, hv2⟩ := bind_ok hv1
    obtain ⟨_, hv3, -⟩ := bind_ok hv2
    exact of_sdpDeclare (SDPDeclareOp.verify_ok (lift_ok.mp hv3)) hx
  | sdpWithdraw _ hx =>
    exact of_untouched rfl rfl rfl rfl rfl rfl (fun k hk => hk) rfl
      (SdpLedger.applyWithdrawnMsg_ok hx)
  | sdpActive _ hx =>
    exact of_untouched rfl rfl rfl rfl rfl rfl (fun k hk => hk) rfl (SdpLedger.applyActiveMsg_ok hx)
  | leaderClaim op proof => exact of_leaderClaim op proof txHash
  | transfer _ hb hx =>
    obtain ⟨_, hv1, -⟩ := bind_ok hv
    exact of_transfer (lift_ok.mp hv1) hb hx
  | claimPowReward hx => exact of_claimPow hx rfl

end OpEffect

/-! ## Transactions -/

namespace TxRun

variable {eras : EraScheduledConfig} {config : Config} {txHash : TxHash} {r r' : TxRun}
  {op : SignedOp × Nat}

theorem step_effect (h : step eras config txHash r op = .ok r') :
    OpEffect r.state op.1 r.balance r'.state r'.balance := by
  obtain ⟨_, _, _, hv, -, -, ha, -⟩ := step_ok h
  exact .of_apply hv ha

end TxRun

namespace LedgerState

variable {s s' : LedgerState} {eras : EraScheduledConfig} {tx : SignedOps} {g : GasAndFees}
  {events : List TxEvent} {deferred : DeferredProofs}

/-- What a transaction pays: the price of its gas is burned, the rest of its balance is the tip. -/
theorem tryApplyTransaction_ok :
    s.tryApplyTransaction eras tx = .ok (s', g, events, deferred) ↔
    ∃ r, s.tryApplyTxOperations eras tx = .ok r ∧ r.state = s' ∧ r.events = events ∧
      g.feeBurned = g.executionGas * s'.getGasPrices.executionBaseGasPrice +
        g.storageGas * s'.getGasPrices.storageGasPrice ∧
      g.feeBurned ≤ r.balance ∧ truncate 64 r.balance = g.feeBurned + g.feeTip ∧
      r.executionGas = g.executionGas ∧ tx.storageSize = g.storageGas ∧
      r.deferredProofs = deferred := by
  constructor
  · intro h
    obtain ⟨r, h1, h2⟩ := bind_ok h
    obtain ⟨executionFees, h3, h4⟩ := bind_ok h2
    obtain ⟨storageFees, h5, h6⟩ := bind_ok h4
    obtain ⟨total, h7, h8⟩ := bind_ok h6
    obtain ⟨_, h9, h10⟩ := bind_ok h8
    obtain ⟨tip, h11, h12⟩ := bind_ok h10
    cases h12
    grind [okOr_ok, failIf_ok, checkedMul_eq_some, checkedAdd_eq_some, checkedSub_eq_some]
  · rintro ⟨r, h1, rfl, rfl, hfee, hle, htrunc, hgas, hsize, rfl⟩
    -- No product or sum is larger than the balance, which is a word.
    have hword : g.feeBurned < 2 ^ 64 := by
      unfold truncate at htrunc
      omega
    obtain ⟨executionGas, storageGas, burned, tip⟩ := g
    subst hgas hsize
    refine ok_bind h1 (ok_bind (okOr_ok.mpr (checkedMul_eq_some.mpr ⟨rfl, ?_⟩)) (ok_bind
      (okOr_ok.mpr (checkedMul_eq_some.mpr ⟨rfl, ?_⟩)) (ok_bind (okOr_ok.mpr
        (checkedAdd_eq_some.mpr ⟨hfee.symm, hword⟩)) (ok_bind (failIf_of_not (Int.not_lt.mpr hle))
          (ok_bind (okOr_ok.mpr (checkedSub_eq_some.mpr htrunc)) rfl)))))
    all_goals grind

theorem tryApplyTransaction_slot
    (h : s.tryApplyTransaction eras tx = .ok (s', g, events, deferred)) : s'.slot = s.slot := by
  obtain ⟨r, h1, rfl, -⟩ := tryApplyTransaction_ok.mp h
  obtain ⟨_, -, h2⟩ := bind_ok h1
  refine foldlM_invariant (I := fun r : TxRun => r.state.slot = s.slot) h2 rfl ?_
  intro op _ r r' hr hstep
  have he := (TxRun.step_effect hstep).cryptarchia
  rw [← hr]
  show r'.state.cryptarchiaLedger.slot = _
  rw [he]
  rfl

/-! ## Blocks -/

section

omit [Primitives]

/-- Two states with the same notes, holders and slot. -/
structure SameNotes (s s' : LedgerState) : Prop where
  utxos : s'.utxos = s.utxos
  channels : s'.channels = s.channels
  serviceNotes : s'.serviceNotes = s.serviceNotes
  slot : s'.slot = s.slot

theorem addSeenBlock_sameNotes (s : LedgerState) (id : Hash) (slot : Nat)
    (eras : EraScheduledConfig) : s.SameNotes (s.addSeenBlock id slot eras) :=
  ⟨rfl, rfl, rfl, rfl⟩

variable {config : Config}

theorem settleBlock_sameNotes {g : GasAndFees}
    (ha : s.settleBlock g config = .ok s') : s.SameNotes s' := by
  obtain ⟨pooled, consumed, leaderReward, blendReward, refill, rfl⟩ := settleBlock_ok ha
  exact ⟨rfl, rfl, SdpLedger.serviceNotes_addBlendIncome _ _, rfl⟩

theorem recordBlock_sameNotes {numTxs claims : Nat}
    (ha : s.recordBlock numTxs claims config = .ok s') : s.SameNotes s' := by
  obtain ⟨pow, -, h1⟩ := bind_ok ha
  cases h1
  exact ⟨rfl, rfl, rfl, rfl⟩

end

/-- A block is later than its parent, and moves to its slot. -/
theorem tryUpdate_slot {id : Hash} {h : Header} {txs : List SignedOps} {events : List Event}
    (hu : s.tryUpdate id h txs eras = .ok (s', events, deferred)) :
    s.slot < h.slot ∧ s'.slot = h.slot := by
  obtain ⟨s1, headerEvents, s2, txEvents, h1, h2, h3, -⟩ := tryUpdate_ok hu
  obtain ⟨b, h4, h5, -, -⟩ := tryApplyBlockContents_ok h2
  obtain ⟨l, effect, hp, -⟩ := tryApplyHeader_ok h1
  obtain ⟨hlt, hs1⟩ := hp.slot
  have hb : b.state.slot = s1.slot := by
    refine foldlM_invariant (I := fun b : BlockRun => b.state.slot = s1.slot) h4 rfl ?_
    grind [BlockRun.step_ok, tryApplyTransaction_slot]
  refine ⟨hlt, ?_⟩
  rw [(recordBlock_sameNotes h3).slot, (settleBlock_sameNotes h5).slot, hb, hs1]

end LedgerState

end Ledger

end Logos
