import LogosChain.Ledger.Channels
import LogosChain.Mantle.Builder
import Mathlib.Data.Finset.Max

/-!
# Submitting a signed transaction (`zone-sdk/src/sequencer`)

A sequencer classifies a transaction by the operations on its channel: one inscription alone or with
a withdrawal or a transfer enters the lineage of messages, everything else is tracked as it is. The
classifier asserts that the inscriptions chain on each other, which those of a caller need not do.
-/

namespace Logos.Zone

open Base Mantle Ledger Primitives List Option

/-! ## Outcomes -/

/-- Why a transaction is not submitted. -/
inductive SubmitError where
  /-- "sequencer not yet ready" -/
  | notReady
  /-- "sequencer state not initialized" -/
  | noState
  /-- "checkpoint unavailable" -/
  | noCheckpoint
  /-- `ParentTaken` -/
  | parentTaken (parent : MsgId) (takenBy : TxHash)
deriving DecidableEq, Repr

/-- The assertions on the way. -/
inductive SubmitPanic where
  /-- "block delivered inscription out of execution order" -/
  | outOfOrder
  /-- "exactly one inscribe entry" -/
  | inscribeEntry
  /-- "channel_transfers == 1 implies a captured transfer" -/
  | channelTransfer
  /-- "exactly one config entry" -/
  | configEntry
  /-- "Safe to unwrap — `ensure_ready` checks state." -/
  | state
deriving DecidableEq, Repr

/-- An error or a panic. -/
inductive SubmitFailure where
  | error (e : SubmitError)
  | panic (p : SubmitPanic)
deriving DecidableEq, Repr

/-! ## Classification (`block_fetch/mod.rs`) -/

/-- A message or a configuration of the channel. -/
structure InscriptionInfo where
  txHash : TxHash
  parentMsg : MsgId
  thisMsg : MsgId
  payload : List Nat
  signer : Option Ed25519PublicKey

/-- A withdrawal from the channel. -/
structure WithdrawInfo where
  txHash : TxHash
  op : ChannelWithdrawOp

/-- What a transaction is for the channel. -/
inductive ChannelTxKind where
  | inscription (i : InscriptionInfo)
  | atomicWithdraw (inscription : InscriptionInfo) (withdraws : List WithdrawInfo)
    (outputs : Outputs)
  | pinDeposit (inscription : InscriptionInfo) (consumedNotes : Inputs) (outputs : Outputs)
  | config (i : InscriptionInfo)
  | custom (messageEntries configEntries : List InscriptionInfo)

/-- What the classifier has seen of a transaction so far. -/
structure Counts where
  entries : List InscriptionInfo := []
  configEntries : List InscriptionInfo := []
  inscribes : Nat := 0
  configs : Nat := 0
  withdraws : List WithdrawInfo := []
  transfers : Nat := 0
  channelTransfers : Nat := 0
  channelTransfer : Option (Inputs × Outputs) := none
  foreignOps : Bool := false
  blockTip : Option MsgId := none

/-- No foreign operation and at most one transfer. -/
def Counts.clean (s : Counts) : Bool := !s.foreignOps && s.transfers ≤ 1

/-- The kind of a transaction with these operations. -/
def Counts.kind (s : Counts) : Except SubmitFailure (Option ChannelTxKind) :=
  if s.entries.isEmpty ∧ s.configEntries.isEmpty then .ok none
  else if s.clean ∧ s.inscribes = 1 ∧ s.configs = 0 ∧ s.channelTransfers ≤ 1 then do
    let inscription ← okOr s.entries.getLast? (.panic .inscribeEntry)
    if ¬ s.withdraws.isEmpty then return some (.atomicWithdraw inscription s.withdraws .empty)
    else if s.channelTransfers = 1 then do
      let (consumedNotes, outputs) ← okOr s.channelTransfer (.panic .channelTransfer)
      return some (.pinDeposit inscription consumedNotes outputs)
    else return some (.inscription inscription)
  else if s.clean ∧ s.configs = 1 ∧ s.inscribes = 0 ∧ s.withdraws.isEmpty ∧ s.channelTransfers = 0
  then do
    let config ← okOr s.configEntries.getLast? (.panic .configEntry)
    return some (.config config)
  else .ok (some (.custom s.entries s.configEntries))

section

variable [Primitives]

/-- What is kept of an inscription. -/
def inscriptionInfo (txHash : TxHash) (op : InscriptionOp) : InscriptionInfo :=
  ⟨txHash, op.parent, inscriptionId op, op.inscription, some op.signer⟩

/-- What is kept of a configuration. -/
def configInfo (txHash : TxHash) (op : ChannelConfigOp) : InscriptionInfo :=
  ⟨txHash, op.parent, channelConfigId op, [], none⟩

/-- An operation; one on another channel is foreign. -/
def classifyOp (txHash : TxHash) (channelId : ChannelId) (s : Counts) (op : SignedOp) :
    Except SubmitFailure Counts :=
  match op with
  | .channelInscribe inscribe _ =>
    if inscribe.channelId = channelId then do
      failIf (s.blockTip.any (inscribe.parent ≠ ·)) (.panic .outOfOrder)
      return { s with
        inscribes := s.inscribes + 1
        entries := s.entries ++ [inscriptionInfo txHash inscribe]
        blockTip := some (inscriptionId inscribe) }
    else return { s with foreignOps := true }
  | .channelConfig config _ =>
    if config.channel = channelId then
      return { s with
        configs := s.configs + 1
        configEntries := s.configEntries ++ [configInfo txHash config] }
    else return { s with foreignOps := true }
  | .channelWithdraw withdraw _ =>
    if withdraw.channelId = channelId then
      return { s with withdraws := s.withdraws ++ [⟨txHash, withdraw⟩] }
    else return { s with foreignOps := true }
  | .channelTransfer transfer _ =>
    if transfer.channelId = channelId then
      return { s with
        channelTransfers := s.channelTransfers + 1
        channelTransfer := some (transfer.inputs, transfer.outputs) }
    else return { s with foreignOps := true }
  | .transfer _ _ => return { s with transfers := s.transfers + 1 }
  | _ => return { s with foreignOps := true }

/-- The kind of a transaction, and the tip after it. -/
def classifyChannelTx (tx : SignedOps) (channelId : ChannelId) (blockTip : Option MsgId) :
    Except SubmitFailure (Option ChannelTxKind × Option MsgId) := do
  let counts ← tx.ops.foldlM (classifyOp tx.hash channelId) { blockTip }
  return (← counts.kind, counts.blockTip)

/-- The messages of a transaction for the channel. -/
def channelInscriptions (tx : SignedOps) (channelId : ChannelId) : List InscriptionInfo :=
  (inscriptionsOn channelId tx.ops).map (inscriptionInfo tx.hash)

/-- The configurations of the channel in a transaction. -/
def channelConfigs (tx : SignedOps) (channelId : ChannelId) : List InscriptionInfo :=
  (configurationsOn channelId tx.ops).map (configInfo tx.hash)

end

/-- One configuration of the channel and at most one transfer. -/
def isPureConfig (tx : SignedOps) (channelId : ChannelId) : Bool :=
  (tx.ops.all fun
    | .channelConfig config _ => config.channel = channelId
    | .transfer _ _ => true
    | _ => false) &&
  (configurationsOn channelId tx.ops).length = 1 &&
  tx.ops.countP (fun | .transfer _ _ => true | _ => false) ≤ 1

/-! ## Tracking (`state.rs`) -/

/-- What comes with a pending message. -/
inductive PendingBundle where
  | plain
  | withdraw (withdraws : List WithdrawInfo) (outputs : Outputs)
  | pinDeposit (consumedNotes : Inputs) (outputs : Outputs)

/-- A message that is not final yet. -/
structure PendingInscription where
  txHash : TxHash
  signedTx : SignedOps
  parentMsg : MsgId
  thisMsg : MsgId
  payload : List Nat
  bundle : PendingBundle
  posted : Bool
  preFund : Option MantleTxBuilder
  fundedAt : Option Nat

/-- The lineages of messages and configurations of a transaction. -/
structure OpaqueLineage where
  firstParent : Option MsgId
  lastMsg : Option MsgId
  configParent : Option MsgId
  lastConfig : Option MsgId

/-- A transaction that is tracked as it is. -/
structure PendingOtherTx extends OpaqueLineage where
  signedTx : SignedOps
  infos : List InscriptionInfo
  configInfos : List InscriptionInfo
  pureConfig : Bool
  seq : Nat
  fundedAt : Option Nat

/-- What the sequencer tracks. -/
structure TxState where
  pending : Map TxHash PendingInscription
  pendingByParent : Map MsgId TxHash
  pendingOther : Map TxHash PendingOtherTx
  nextOtherSeq : Nat

namespace TxState

/-- The pending message on a parent. -/
def pendingChild (state : TxState) (parent : MsgId) : Option TxHash :=
  state.pendingByParent.lookup parent

/-- The pending configuration on a parent. -/
def pendingConfigChild (state : TxState) (parent : MsgId) : Option TxHash :=
  (state.pendingOther.keys.filter fun hash =>
    (state.pendingOther.lookup hash).any (·.configParent = some parent)).min

/-- A parent with another child is taken. -/
def notTaken (parent : MsgId) (child : Option TxHash) (txHash : TxHash) :
    Except SubmitFailure Unit :=
  match child with
  | some takenBy => failIf (takenBy ≠ txHash) (.error (.parentTaken parent takenBy))
  | none => .ok ()

/-- Records when a transaction was funded. -/
def stampFunding (state : TxState) (txHash : TxHash) (fundedAt : Nat)
    (preFund : Option MantleTxBuilder) : TxState :=
  match state.pending.lookup txHash with
  | some pending => { state with
      pending := state.pending.insert txHash { pending with
        fundedAt := some fundedAt
        preFund := preFund.or pending.preFund } }
  | none =>
    match state.pendingOther.lookup txHash with
    | some entry => { state with
        pendingOther := state.pendingOther.insert txHash { entry with fundedAt := some fundedAt } }
    | none => state

variable [Primitives]

/-- The ends of the messages and of the configurations. -/
def opaqueLineage (tx : SignedOps) (channelId : ChannelId) : OpaqueLineage :=
  let infos := channelInscriptions tx channelId
  let configInfos := channelConfigs tx channelId
  ⟨infos.head?.map (·.parentMsg), infos.getLast?.map (·.thisMsg),
    configInfos.head?.map (·.parentMsg), configInfos.getLast?.map (·.thisMsg)⟩

/-- Tracks a message, unless its parent is taken. -/
def insertPending (state : TxState) (signedTx : SignedOps) (parentMsg thisMsg : MsgId)
    (payload : List Nat) (bundle : PendingBundle) : Except SubmitFailure TxState := do
  notTaken parentMsg (state.pendingChild parentMsg) signedTx.hash
  return { state with
    pendingByParent := state.pendingByParent.insert parentMsg signedTx.hash
    pending := state.pending.insert signedTx.hash
      ⟨signedTx.hash, signedTx, parentMsg, thisMsg, payload, bundle, false, none, none⟩ }

/-- Tracks a transaction as it is. -/
def insertOther (state : TxState) (signedTx : SignedOps) (channelId : ChannelId)
    (lineage : OpaqueLineage) : Option MsgId × TxState :=
  (lineage.lastMsg, { state with
    pendingByParent := match lineage.firstParent with
      | some parent => state.pendingByParent.insert parent signedTx.hash
      | none => state.pendingByParent
    nextOtherSeq := wrappingAdd 64 state.nextOtherSeq 1
    pendingOther := state.pendingOther.insert signedTx.hash
      { lineage with
        signedTx
        infos := channelInscriptions signedTx channelId
        configInfos := channelConfigs signedTx channelId
        pureConfig := isPureConfig signedTx channelId
        seq := state.nextOtherSeq
        fundedAt := none } })

/-- Tracks a transaction as it is, unless a parent is taken. -/
def submitOther (state : TxState) (signedTx : SignedOps) (channelId : ChannelId) :
    Except SubmitFailure (Option MsgId × TxState) := do
  let lineage := opaqueLineage signedTx channelId
  lineage.firstParent.toList.forM fun parent =>
    notTaken parent (state.pendingChild parent) signedTx.hash
  lineage.configParent.toList.forM fun parent =>
    notTaken parent (state.pendingConfigChild parent) signedTx.hash
  return state.insertOther signedTx channelId lineage

/-- Tracks a transaction, and the tip that it leaves behind. -/
def trackPendingTx (state : TxState) (tx : SignedOps) (channelId : ChannelId) :
    Except SubmitFailure (Option MsgId × TxState) := do
  let (kind, _) ← classifyChannelTx tx channelId none
  match kind with
  | some (.inscription i) =>
    return (some i.thisMsg, ← state.insertPending tx i.parentMsg i.thisMsg i.payload .plain)
  | some (.atomicWithdraw i withdraws outputs) =>
    return (some i.thisMsg, ← state.insertPending tx i.parentMsg i.thisMsg i.payload
      (.withdraw withdraws outputs))
  | some (.pinDeposit i consumedNotes outputs) =>
    return (some i.thisMsg, ← state.insertPending tx i.parentMsg i.thisMsg i.payload
      (.pinDeposit consumedNotes outputs))
  | _ => state.submitOther tx channelId

end TxState

/-! ## Submission (`zone_sequencer.rs`) -/

/-- What a checkpoint is read from. -/
structure SequencerCheckpoint where
  state : TxState
  lastMsgId : MsgId
  libSlot : Nat

/-- The sequencer of a channel. -/
structure ZoneSequencer where
  isReady : Bool
  state : Option TxState
  channelId : ChannelId
  lastMsgId : MsgId
  libSlot : Nat
  posting : Finset TxHash
  inFlight : List (List (TxHash × SignedOps))

namespace ZoneSequencer

/-- The sequencer is ready and has a state. -/
def ensureReady (seq : ZoneSequencer) : Except SubmitFailure Unit := do
  failIf (¬ seq.isReady) (.error .notReady)
  failIf seq.state.isNone (.error .noState)

/-- The checkpoint of the sequencer. -/
def publishCheckpoint (seq : ZoneSequencer) : Option SequencerCheckpoint :=
  seq.state.map fun state => ⟨state, seq.lastMsgId, seq.libSlot⟩

/-- Queues a transaction to be posted. -/
def queuePublishPost (seq : ZoneSequencer) (txHash : TxHash) (tx : SignedOps) : ZoneSequencer :=
  { seq with
    posting := insert txHash seq.posting
    inFlight := seq.inFlight ++ [[(txHash, tx)]] }

variable [Primitives]

/-- The receipt and the sequencer. The caller's `MsgId` is only compared. -/
def doSubmitSignedTx (seq : ZoneSequencer) (tx : SignedOps) (_msgId : MsgId) :
    Except SubmitFailure ((InscriptionInfo × SequencerCheckpoint) × ZoneSequencer) := do
  seq.ensureReady
  let state ← okOr seq.state (.panic .state)
  let (derivedTip, state) ← state.trackPendingTx tx seq.channelId
  let newTip := derivedTip.getD seq.lastMsgId
  let (payload, signer) := match (inscriptionsOn seq.channelId tx.ops).head? with
    | some i => (i.inscription, some i.signer)
    | none => ([], none)
  let next := { seq with
    state := some (state.stampFunding tx.hash seq.libSlot none)
    lastMsgId := newTip }.queuePublishPost tx.hash tx
  let checkpoint ← okOr next.publishCheckpoint (.error .noCheckpoint)
  return ((⟨tx.hash, seq.lastMsgId, newTip, payload, signer⟩, checkpoint), next)

end ZoneSequencer

/-! ## Where the classifier panics -/

/-- The numbers agree with what has been collected. -/
structure Counts.Counted (s : Counts) : Prop where
  inscribes : s.inscribes = s.entries.length
  configs : s.configs = s.configEntries.length
  channelTransfer : s.channelTransfers ≠ 0 → s.channelTransfer.isSome

theorem Counts.Counted.kind {s : Counts} (h : s.Counted) : ∃ kind, s.kind = .ok kind := by
  unfold Counts.kind
  by_cases hempty : s.entries.isEmpty ∧ s.configEntries.isEmpty
  · exact ⟨_, if_pos hempty⟩
  rw [if_neg hempty]
  by_cases hone : s.clean ∧ s.inscribes = 1 ∧ s.configs = 0 ∧ s.channelTransfers ≤ 1
  · obtain ⟨i, hi⟩ : ∃ i, s.entries = [i] :=
      length_eq_one_iff.mp (h.inscribes.symm.trans hone.2.1)
    rw [if_pos hone, bind_of_ok (okOr_ok.mpr (by rw [hi]; rfl))]
    by_cases hwithdraws : ¬ s.withdraws.isEmpty
    · exact ⟨_, if_pos hwithdraws⟩
    rw [if_neg hwithdraws]
    by_cases htransfers : s.channelTransfers = 1
    · obtain ⟨transfer, ht⟩ := isSome_iff_exists.mp (h.channelTransfer (by omega))
      rw [if_pos htransfers, bind_of_ok (okOr_ok.mpr ht)]
      exact ⟨_, rfl⟩
    · exact ⟨_, if_neg htransfers⟩
  rw [if_neg hone]
  split
  · next hconfig =>
    obtain ⟨i, hi⟩ : ∃ i, s.configEntries = [i] :=
      length_eq_one_iff.mp (h.configs.symm.trans hconfig.2.1)
    rw [bind_of_ok (okOr_ok.mpr (by rw [hi]; rfl))]
    exact ⟨_, rfl⟩
  · exact ⟨_, rfl⟩

variable [Primitives] {channelId : ChannelId} {s s' : Counts} {op : SignedOp}

/-- The messages chain on each other, and on the tip if there is one. -/
def ChainsFrom (tip : Option MsgId) (messages : List InscriptionOp) : Prop :=
  ∃ root, (∀ t ∈ tip, root = t) ∧
    Follows InscriptionOp.parent inscriptionId root messages

theorem chainsFrom_cons {tip : Option MsgId} {message : InscriptionOp}
    {messages : List InscriptionOp} : ChainsFrom tip (message :: messages) ↔
      (∀ t ∈ tip, message.parent = t) ∧ ChainsFrom (some (inscriptionId message)) messages := by
  constructor
  · rintro ⟨root, htip, rfl, hrest⟩
    exact ⟨htip, _, by simp, hrest⟩
  · rintro ⟨htip, root, hroot, hrest⟩
    cases hroot _ rfl
    exact ⟨_, htip, rfl, hrest⟩

/-- An operation without a message leaves the tip. -/
theorem classifyOp_other (txHash : TxHash) (hop : inscriptionsOn channelId [op] = [])
    (h : s.Counted) :
    ∃ s', classifyOp txHash channelId s op = .ok s' ∧ s'.Counted ∧ s'.blockTip = s.blockTip := by
  have hkept := h.channelTransfer
  cases op with
  | channelInscribe inscribe proof =>
    have hchannel : ¬ inscribe.channelId = channelId := by
      simpa [SignedOp.inscription?] using hop
    rw [classifyOp, if_neg hchannel]
    exact ⟨_, rfl, ⟨h.inscribes, h.configs, hkept⟩, rfl⟩
  | channelConfig config proof =>
    rw [classifyOp]
    split
    · exact ⟨_, rfl, ⟨h.inscribes, by simp [h.configs], hkept⟩, rfl⟩
    · exact ⟨_, rfl, ⟨h.inscribes, h.configs, hkept⟩, rfl⟩
  | channelWithdraw withdraw proof =>
    rw [classifyOp]
    split <;> exact ⟨_, rfl, ⟨h.inscribes, h.configs, hkept⟩, rfl⟩
  | channelTransfer transfer proof =>
    rw [classifyOp]
    split
    · exact ⟨_, rfl, ⟨h.inscribes, h.configs, fun _ => rfl⟩, rfl⟩
    · exact ⟨_, rfl, ⟨h.inscribes, h.configs, hkept⟩, rfl⟩
  | _ => exact ⟨_, rfl, ⟨h.inscribes, h.configs, hkept⟩, rfl⟩

/-- A message for the channel has to chain on the tip, and is the next tip. -/
theorem classifyOp_inscribe (txHash : TxHash) {inscribe : InscriptionOp} (proof : Ed25519Signature)
    (hchannel : inscribe.channelId = channelId) (h : s.Counted) :
    (¬ (∀ t ∈ s.blockTip, inscribe.parent = t) ∧
      classifyOp txHash channelId s (.channelInscribe inscribe proof) =
        .error (.panic .outOfOrder)) ∨
    (∀ t ∈ s.blockTip, inscribe.parent = t) ∧
      ∃ s', classifyOp txHash channelId s (.channelInscribe inscribe proof) = .ok s' ∧
        s'.Counted ∧ s'.blockTip = some (inscriptionId inscribe) := by
  have htip : s.blockTip.any (inscribe.parent ≠ ·) ↔ ¬ ∀ t ∈ s.blockTip, inscribe.parent = t := by
    cases s.blockTip <;> simp
  by_cases hnext : ∀ t ∈ s.blockTip, inscribe.parent = t
  · refine .inr ⟨hnext, ?_⟩
    rw [classifyOp, if_pos hchannel, bind_of_ok (failIf_of_not (by rwa [htip, not_not]))]
    exact ⟨_, rfl, ⟨by simp [h.inscribes], h.configs, h.channelTransfer⟩, rfl⟩
  · refine .inl ⟨hnext, ?_⟩
    rw [classifyOp, if_pos hchannel, error_bind (failIf_error.mpr ⟨htip.mpr hnext, rfl⟩)]

/-- The loop ends where the messages chain on the tip, and panics where they do not. -/
theorem classify_ops (txHash : TxHash) (channelId : ChannelId) (ops : List SignedOp)
    (h : s.Counted) :
    (ChainsFrom s.blockTip (inscriptionsOn channelId ops) ∧
      ∃ s', ops.foldlM (classifyOp txHash channelId) s = .ok s' ∧ s'.Counted) ∨
    (¬ ChainsFrom s.blockTip (inscriptionsOn channelId ops) ∧
      ops.foldlM (classifyOp txHash channelId) s = .error (.panic .outOfOrder)) := by
  induction ops generalizing s with
  | nil =>
    refine .inl ⟨?_, s, rfl, h⟩
    cases s.blockTip with
    | none => exact ⟨0, nofun, trivial⟩
    | some t => exact ⟨t, by simp, trivial⟩
  | cons op ops ih =>
    have happend := inscriptionsOn_append channelId [op] ops
    rw [singleton_append] at happend
    rw [foldlM_cons]
    by_cases hop : inscriptionsOn channelId [op] = []
    · obtain ⟨s', hs', hcounted, htip⟩ := classifyOp_other txHash hop h
      rw [bind_of_ok hs', happend, hop, nil_append, ← htip]
      exact ih hcounted
    obtain ⟨inscribe, proof, rfl, hchannel⟩ : ∃ inscribe proof,
        op = .channelInscribe inscribe proof ∧ inscribe.channelId = channelId := by
      cases op <;> simp_all [SignedOp.inscription?]
    have hcons : inscriptionsOn channelId (.channelInscribe inscribe proof :: ops) =
        inscribe :: inscriptionsOn channelId ops := by
      simp [happend, SignedOp.inscription?, hchannel]
    rw [hcons, chainsFrom_cons]
    rcases classifyOp_inscribe txHash proof hchannel h with
      ⟨hnext, herror⟩ | ⟨hnext, s', hs', hcounted, htip⟩
    · rw [error_bind herror]
      exact .inr ⟨fun hchains => hnext hchains.1, rfl⟩
    · rw [bind_of_ok hs', and_iff_right hnext, ← htip]
      exact ih hcounted

theorem classifyChannelTx_spec (tx : SignedOps) (channelId : ChannelId) :
    (ChainsFrom none (inscriptionsOn channelId tx.ops) ∧
      ∃ r, classifyChannelTx tx channelId none = .ok r) ∨
    (¬ ChainsFrom none (inscriptionsOn channelId tx.ops) ∧
      classifyChannelTx tx channelId none = .error (.panic .outOfOrder)) := by
  have hstart : ({} : Counts).Counted := ⟨rfl, rfl, nofun⟩
  rcases classify_ops tx.hash channelId tx.ops hstart with ⟨hchains, s, hs, hcounted⟩ | ⟨hchains, herror⟩
  · obtain ⟨kind, hkind⟩ := hcounted.kind
    refine .inl ⟨hchains, (kind, s.blockTip), ?_⟩
    rw [classifyChannelTx, bind_of_ok hs, bind_of_ok hkind]
    rfl
  · exact .inr ⟨hchains, by rw [classifyChannelTx, error_bind herror]⟩

/-! ## Submission panics only there -/

/-- A computation with no panic. -/
abbrev NoPanic {α : Type} (x : Except SubmitFailure α) : Prop :=
  Avoids (fun e => ∃ p, e = .panic p) x

namespace TxState

omit [Primitives] in
theorem notTaken_noPanic (parent : MsgId) (child : Option TxHash) (txHash : TxHash) :
    NoPanic (notTaken parent child txHash) := by
  cases child with
  | none => exact .ok ()
  | some takenBy => exact .failIf (by simp)

theorem insertPending_noPanic (state : TxState) (tx : SignedOps) (parentMsg thisMsg : MsgId)
    (payload : List Nat) (bundle : PendingBundle) :
    NoPanic (state.insertPending tx parentMsg thisMsg payload bundle) :=
  .bind (notTaken_noPanic _ _ _) fun _ _ => .ok _

theorem submitOther_noPanic (state : TxState) (tx : SignedOps) :
    NoPanic (state.submitOther tx channelId) := by
  refine .bind ?_ fun _ _ => .bind ?_ fun _ _ => .ok _
  · intro e he
    obtain ⟨parent, -, hparent⟩ := forM_error he
    exact notTaken_noPanic _ _ _ e hparent
  · intro e he
    obtain ⟨parent, -, hparent⟩ := forM_error he
    exact notTaken_noPanic _ _ _ e hparent

theorem trackPendingTx_noPanic (state : TxState) {tx : SignedOps}
    {r : Option ChannelTxKind × Option MsgId} (h : classifyChannelTx tx channelId none = .ok r) :
    NoPanic (state.trackPendingTx tx channelId) := by
  obtain ⟨kind, tip⟩ := r
  rw [trackPendingTx, bind_of_ok h]
  match kind with
  | some (.inscription _) | some (.atomicWithdraw _ _ _) | some (.pinDeposit _ _ _) =>
    exact .bind (insertPending_noPanic _ _ _ _ _ _) fun _ _ => .ok _
  | none | some (.config _) | some (.custom _ _) => exact submitOther_noPanic _ _

end TxState

/-- Submitting panics exactly if the sequencer is ready and the messages for the channel do not
chain. -/
theorem submit_noPanic_iff (seq : ZoneSequencer) (tx : SignedOps) (msgId : MsgId) :
    (∀ p, seq.doSubmitSignedTx tx msgId ≠ .error (.panic p)) ↔
      (seq.ensureReady = .ok () →
        ∃ root, Follows InscriptionOp.parent inscriptionId root
          (inscriptionsOn seq.channelId tx.ops)) := by
  have hchains : (∃ root, Follows InscriptionOp.parent inscriptionId root
      (inscriptionsOn seq.channelId tx.ops)) ↔
        ChainsFrom none (inscriptionsOn seq.channelId tx.ops) := by
    simp [ChainsFrom]
  rw [hchains]
  have hspec := classifyChannelTx_spec tx seq.channelId
  constructor
  · intro hnever hready
    obtain ⟨-, -, hstate⟩ := bind_ok hready
    obtain ⟨state, hstate⟩ := ne_none_iff_exists'.mp
      (mt isNone_iff_eq_none.mpr (failIf_ok.mp hstate))
    rcases hspec with ⟨hok, -⟩ | ⟨-, herror⟩
    · exact hok
    have htrack : state.trackPendingTx tx seq.channelId = .error (.panic .outOfOrder) := by
      rw [TxState.trackPendingTx, error_bind herror]
    refine absurd ?_ (hnever .outOfOrder)
    rw [ZoneSequencer.doSubmitSignedTx, bind_of_ok hready, bind_of_ok (okOr_ok.mpr hstate),
      error_bind htrack]
  · intro h p hp
    refine (?_ : NoPanic (seq.doSubmitSignedTx tx msgId)) _ hp ⟨p, rfl⟩
    refine .bind (.bind (.failIf (by simp)) fun _ _ => .failIf (by simp)) fun _ hready => ?_
    obtain ⟨-, -, hstate⟩ := bind_ok hready
    refine .bind (.okOr fun hnone => ?_) fun state _ => ?_
    · exact absurd (isNone_iff_eq_none.mpr hnone) (failIf_ok.mp hstate)
    rcases hspec with ⟨-, r, hok⟩ | ⟨hnot, -⟩
    · exact .bind (state.trackPendingTx_noPanic hok) fun _ _ =>
        .bind (.okOr (by simp)) fun _ _ => .ok _
    · exact absurd (h hready) hnot

omit [Primitives] in
/-- Two messages on a channel, of which the second does not name the first as its parent. -/
theorem submit_unchained_panics :
    letI := Primitives.plain
    (⟨true, some ⟨∅, ∅, ∅, 0⟩, 7, 0, 0, ∅, []⟩ : ZoneSequencer).doSubmitSignedTx
      ⟨0, [.channelInscribe ⟨7, [], 0, 1⟩ 0, .channelInscribe ⟨7, [], 5, 1⟩ 0]⟩ 0 =
        .error (.panic .outOfOrder) := rfl

end Logos.Zone
