import LogosChain.Mantle.Errors

/-!
# Operations on channels (`core/src/mantle/ops/channel`)

For each operation: `preverify` is what can be checked without the ledger, `verify` is what is
checked against it and `execute` is what it changes.
-/

namespace Logos.Mantle

open Base Primitives

variable [Primitives]

/-! ## Signatures of the keys of a channel -/

/-- Every signature is of the key at its index. -/
def verifySignatures (keys : ChannelKeys) (txHash : TxHash) (noKey : Nat → ChannelError)
    (signatures : List (Nat × Ed25519Signature)) : Except ChannelError Unit :=
  signatures.forM fun s => do
    let key ← okOr keys.keys[s.1]? (noKey s.1)
    failIf (!ed25519Verify key txHash s.2) .invalidSignature

def getKeyFromChannelAtIndex (channels : Channels) (channelId : ChannelId) (keyIndex : Nat) :
    Except VerificationError Ed25519PublicKey := do
  let channel ← okOr (channels.channelState channelId) (.channelNotFound channelId)
  okOr channel.accreditedKeys.keys[keyIndex]? (.keyNotFound channelId keyIndex)

/-- As many keys have signed as a transfer needs. -/
def verifyChannelMultiSig (channelId : ChannelId) (proof : ChannelMultiSigProof) (txHash : TxHash)
    (channels : Channels) (opIndex : Nat) : Except VerificationError Unit := do
  let channel ← okOr (channels.channelState channelId) (.channelNotFound channelId)
  failIf (proof.signatures.length ≠ channel.transferThreshold)
    (.channelMultiSigProofNotEnoughSignatures opIndex proof.signatures.length
      channel.transferThreshold)
  proof.signatures.zipIdx.forM fun s => do
    let key ← getKeyFromChannelAtIndex channels channelId s.1.1
    failIf (!ed25519Verify key txHash s.1.2)
      (.channelMultiSigProofInvalidSignature opIndex s.2)

/-! ## Inscription -/

namespace InscriptionOp

def id (op : InscriptionOp) : MsgId := inscriptionId op

def preverify (op : InscriptionOp) (proof : Ed25519Signature) (txHash : TxHash) :
    Except ChannelError Unit := do
  failIf (isWeak op.signer) .invalidSigner
  failIf (!ed25519Verify op.signer txHash proof) .invalidSignature

/-- The message follows the last one, and its signer has the turn. -/
def verify (op : InscriptionOp) (channels : Channels) (blockSlot : Nat) :
    Result ChannelError Unit :=
  match channels.channelState op.channelId with
  | some channel => do
    failIf (op.parent ≠ channel.tipMessage)
      (.error (.invalidParent op.channelId op.parent channel.tipMessage))
    let key ← expect channel.accreditedKeys.keys[(channel.roundRobin blockSlot).1]? .sequencerIndex
    failIf (op.signer ≠ key) (.error (.unauthorizedSigner op.channelId op.signer))
  | none => failIf (op.parent ≠ MsgId.root)
      (.error (.invalidParent op.channelId op.parent MsgId.root))

/-- The channel that the first message of a signer makes. -/
def newChannel (op : InscriptionOp) (blockSlot : Nat) : ChannelState where
  accreditedKeys := ⟨[op.signer], by simp, by simp [channelMaxKeys]⟩
  configurationThreshold := 1
  tipMessage := MsgId.root
  configTipHash := MsgId.root
  tipSlot := blockSlot
  tipSequencer := 0
  tipSequencerStartingSlot := blockSlot
  postingTimeframe := 0
  postingTimeout := 0
  transferThreshold := defaultTransferThreshold

def execute (op : InscriptionOp) (channels : Channels) (blockSlot : Nat) : Channels :=
  let channel := (channels.channelState op.channelId).getD (op.newChannel blockSlot)
  let turn := channel.roundRobin blockSlot
  channels.setChannel op.channelId { channel with
    tipMessage := op.id
    tipSequencer := turn.1
    tipSequencerStartingSlot := turn.2
    tipSlot := blockSlot }

end InscriptionOp

/-! ## Configuration -/

namespace ChannelConfigOp

def id (op : ChannelConfigOp) : MsgId := channelConfigId op

/-- The configuration follows the last one, signed, or the root, unsigned. -/
def verify (op : ChannelConfigOp) (proof : ChannelMultiSigProof) (channels : Channels)
    (txHash : TxHash) : Except ChannelError Unit :=
  match channels.channelState op.channel with
  | some channel => do
    failIf (op.parent ≠ channel.configTipHash)
      (.invalidParent op.channel op.parent channel.configTipHash)
    failIf (proof.signatures.length ≠ channel.configurationThreshold)
      (.thresholdUnmet op.channel channel.configurationThreshold proof.signatures.length)
    verifySignatures channel.accreditedKeys txHash
      (.invalidSignatureIndex op.channel channel.accreditedKeys.keys.length) proof.signatures
  | none => do
    failIf (op.parent ≠ MsgId.root) (.invalidParent op.channel op.parent MsgId.root)
    failIf (proof.signatures ≠ []) (.thresholdUnmet op.channel 0 proof.signatures.length)

/-- The channel after the configuration. -/
def configured (op : ChannelConfigOp) (tipMessage : MsgId) (blockSlot : Nat) : ChannelState where
  accreditedKeys := op.keys
  configurationThreshold := op.configurationThreshold
  tipMessage := tipMessage
  configTipHash := op.id
  tipSlot := blockSlot
  tipSequencer := 0
  tipSequencerStartingSlot := blockSlot
  postingTimeframe := op.postingTimeframe
  postingTimeout := op.postingTimeout
  transferThreshold := op.transferThreshold

def execute (op : ChannelConfigOp) (channels : Channels) (blockSlot : Nat) : Channels :=
  let tipMessage := ((channels.channelState op.channel).map (·.tipMessage)).getD MsgId.root
  channels.setChannel op.channel (op.configured tipMessage blockSlot)

end ChannelConfigOp

/-! ## Deposit -/

namespace DepositOp

def preverify (op : DepositOp) : Except ChannelError Unit :=
  op.inputs.preverify.mapError .inputs

def verify (op : DepositOp) (proof : ZkSignature) (channels : Channels)
    (serviceNotes : ServiceNotes) (utxos : Utxos) (txHash : TxHash) :
    Except ChannelError (ZkSignature × ZkSignInputs) := do
  failIf (channels.channelState op.channelId = none) (.channelNotFound op.channelId)
  (op.inputs.validateNotInChannel serviceNotes channels utxos).mapError .inputs
  let pks ← (op.inputs.getPk utxos).mapError .inputs
  let inputs ← okOr (publicInputsFromPks txHash pks) .invalidSignature
  return (proof, inputs)

/-- The notes that the deposit makes in the channel. -/
def outputs (op : DepositOp) (utxos : Utxos) : Except InputsError (List Note) :=
  op.inputs.ids.mapM (Inputs.noteOf utxos)

/-- The notes of the deposit in the channel, by their places. -/
def newUtxos (op : DepositOp) (notes : List Note) : List Utxo :=
  notes.mapIdx fun index note => ⟨opId (.channelDeposit op), index, note⟩

def execute (op : DepositOp) (channels : Channels) (utxos : Utxos) (txHash : TxHash) :
    Except ChannelError (Channels × Utxos × List TxEvent) := do
  let amountDeposited ← (op.inputs.amount utxos).mapError .inputs
  let notes ← (op.outputs utxos).mapError .inputs
  let spent ← (op.inputs.execute utxos).mapError .inputs
  let new := op.newUtxos notes
  let channels ← (channels.registerAll (new.map Utxo.id) op.channelId).mapError .channelNotes
  let depositNotes := new.map fun u => DepositNote.mk u.id u.note.value u.note.pk
  return (channels, spent.insertAll new, [⟨txHash, opId (.channelDeposit op),
    .deposit op.channelId amountDeposited op.metadata depositNotes⟩])

variable {op : DepositOp} {utxos : Utxos} {channels : Channels} {txHash : TxHash}

theorem verify_ok {proof : ZkSignature} {serviceNotes : ServiceNotes}
    {p : ZkSignature × ZkSignInputs}
    (h : op.verify proof channels serviceNotes utxos txHash = .ok p) :
    (∃ c, channels.channelState op.channelId = some c) ∧ ∀ n ∈ op.inputs.ids,
      serviceNotes.lookup n = none ∧ channels.channelNotes.lookup n = none := by
  obtain ⟨_, h1, h2⟩ := bind_ok h
  obtain ⟨_, h3, -⟩ := bind_ok h2
  rw [failIf_ok] at h1
  exact ⟨Option.ne_none_iff_exists'.mp h1, Inputs.validateNotInChannel_ok (mapError_ok.mp h3)⟩

theorem execute_ok {channels' : Channels} {utxos' : Utxos} {events : List TxEvent}
    (h : op.execute channels utxos txHash = .ok (channels', utxos', events)) :
    ∃ notes spent, op.outputs utxos = .ok notes ∧ op.inputs.execute utxos = .ok spent ∧
      channels.registerAll ((op.newUtxos notes).map Utxo.id) op.channelId = .ok channels' ∧
      utxos' = spent.insertAll (op.newUtxos notes) := by
  obtain ⟨_, -, h1⟩ := bind_ok h
  obtain ⟨notes, h2, h3⟩ := bind_ok h1
  obtain ⟨spent, h4, h5⟩ := bind_ok h3
  obtain ⟨registered, h6, h7⟩ := bind_ok h5
  cases h7
  grind [mapError_ok]

theorem value_newUtxos {notes : List Note} (h : op.outputs utxos = .ok notes) :
    (op.newUtxos notes).map (·.note.value) = op.inputs.ids.map utxos.valueOf := by
  rw [newUtxos, map_value_mapIdx, Inputs.mapM_noteOf_ok h]

end DepositOp

/-! ## Withdrawal -/

namespace ChannelWithdrawOp

def preverify (op : ChannelWithdrawOp) : Except ChannelError Unit :=
  op.inputs.preverify.mapError .inputs

def verify (op : ChannelWithdrawOp) (proof : ChannelMultiSigProof) (channels : Channels)
    (serviceNotes : ServiceNotes) (utxos : Utxos) (txHash : TxHash) (opIndex : Nat) :
    Except ChannelError Unit := do
  (verifyChannelMultiSig op.channelId proof txHash channels opIndex).mapError
    fun _ => .invalidSignature
  let channel ← okOr (channels.channelState op.channelId) (.channelNotFound op.channelId)
  (op.inputs.validateInChannel serviceNotes channels op.channelId utxos).mapError .inputs
  failIf (proof.signatures.length ≠ channel.transferThreshold)
    (.thresholdUnmet op.channelId channel.transferThreshold proof.signatures.length)
  verifySignatures channel.accreditedKeys txHash (fun _ => .invalidSignature) proof.signatures

/-- The notes leave the channel and stay unspent. -/
def execute (op : ChannelWithdrawOp) (channels : Channels) : Except ChannelError Channels :=
  (channels.unregisterAll op.inputs.ids op.channelId).mapError .channelNotes

theorem verify_ok {op : ChannelWithdrawOp} {proof : ChannelMultiSigProof} {channels : Channels}
    {serviceNotes : ServiceNotes} {utxos : Utxos} {txHash : TxHash} {opIndex : Nat} {u : Unit}
    (h : op.verify proof channels serviceNotes utxos txHash opIndex = .ok u) :
    ∀ n ∈ op.inputs.ids, serviceNotes.lookup n = none := by
  obtain ⟨_, -, h1⟩ := bind_ok h
  obtain ⟨_, -, h2⟩ := bind_ok h1
  obtain ⟨_, h3, -⟩ := bind_ok h2
  exact Inputs.validateInChannel_ok (mapError_ok.mp h3)

end ChannelWithdrawOp

/-! ## Transfer inside a channel -/

namespace ChannelTransferOp

def preverify (op : ChannelTransferOp) : Except ChannelError Unit := do
  op.inputs.preverify.mapError .inputs
  op.outputs.validate.mapError .outputs

def verify (op : ChannelTransferOp) (proof : ChannelMultiSigProof) (channels : Channels)
    (serviceNotes : ServiceNotes) (utxos : Utxos) (txHash : TxHash) (opIndex : Nat) :
    Except ChannelError Unit := do
  (verifyChannelMultiSig op.channelId proof txHash channels opIndex).mapError
    fun _ => .invalidSignature
  let channel ← okOr (channels.channelState op.channelId) (.channelNotFound op.channelId)
  (op.inputs.validateInChannel serviceNotes channels op.channelId utxos).mapError .inputs
  let inputAmount ← (op.inputs.amount utxos).mapError .inputs
  let outputAmount ← op.outputs.amount.mapError .outputs
  failIf (inputAmount ≠ outputAmount) .unbalancedTransfer
  failIf (proof.signatures.length ≠ channel.transferThreshold)
    (.thresholdUnmet op.channelId channel.transferThreshold proof.signatures.length)
  verifySignatures channel.accreditedKeys txHash (fun _ => .invalidSignature) proof.signatures

def newUtxos (op : ChannelTransferOp) : List Utxo :=
  op.outputs.utxos (opId (.channelTransfer op))

def execute (op : ChannelTransferOp) (channels : Channels) (utxos : Utxos) :
    Except ChannelError (Channels × Utxos) := do
  let spent ← (op.inputs.execute utxos).mapError .inputs
  let released ← (channels.unregisterAll op.inputs.ids op.channelId).mapError .channelNotes
  let channels ← (released.registerAll (op.newUtxos.map Utxo.id) op.channelId).mapError
    .channelNotes
  return (channels, op.outputs.execute spent (opId (.channelTransfer op)))

variable {op : ChannelTransferOp} {channels : Channels} {utxos : Utxos}

theorem verify_ok {proof : ChannelMultiSigProof} {serviceNotes : ServiceNotes} {txHash : TxHash}
    {opIndex : Nat} {u : Unit}
    (h : op.verify proof channels serviceNotes utxos txHash opIndex = .ok u) :
    (∃ c, channels.channelState op.channelId = some c) ∧
      (∀ n ∈ op.inputs.ids, serviceNotes.lookup n = none) ∧
      (op.inputs.ids.map utxos.valueOf).sum = (op.newUtxos.map (·.note.value)).sum := by
  obtain ⟨_, -, h1⟩ := bind_ok h
  obtain ⟨channel, h2, h3⟩ := bind_ok h1
  obtain ⟨_, h4, h5⟩ := bind_ok h3
  obtain ⟨inputAmount, h6, h7⟩ := bind_ok h5
  obtain ⟨outputAmount, h8, h9⟩ := bind_ok h7
  obtain ⟨_, h10, -⟩ := bind_ok h9
  rw [failIf_ok, ne_eq, not_not] at h10
  refine ⟨⟨channel, okOr_ok.mp h2⟩, Inputs.validateInChannel_ok (mapError_ok.mp h4), ?_⟩
  grind [newUtxos, Outputs.utxos, map_value_mapIdx, Inputs.amount_ok, Outputs.amount_ok,
    mapError_ok]

theorem execute_ok {channels' : Channels} {utxos' : Utxos}
    (h : op.execute channels utxos = .ok (channels', utxos')) :
    ∃ spent released, op.inputs.execute utxos = .ok spent ∧
      channels.unregisterAll op.inputs.ids op.channelId = .ok released ∧
      released.registerAll (op.newUtxos.map Utxo.id) op.channelId = .ok channels' ∧
      utxos' = spent.insertAll op.newUtxos := by
  obtain ⟨spent, h1, h2⟩ := bind_ok h
  obtain ⟨released, h3, h4⟩ := bind_ok h2
  obtain ⟨registered, h5, h6⟩ := bind_ok h4
  cases h6
  exact ⟨spent, released, mapError_ok.mp h1, mapError_ok.mp h3, mapError_ok.mp h5, rfl⟩

end ChannelTransferOp

end Logos.Mantle
