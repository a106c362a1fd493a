import LogosChain.Mantle.Errors

/-!
# Operations of the service declaration protocol (`core/src/mantle/ops/sdp`)
-/

namespace Logos.Mantle

open Base

variable [Primitives]

/-- The declaration is the one that the operation names. -/
def validateDeclarationId (operationDeclarationId : DeclarationId) (declaration : Declaration) :
    Except SdpError Unit :=
  failIf (operationDeclarationId ≠ declaration.id)
    (.declarationIdMismatch operationDeclarationId declaration.id)

/-- The nonce comes after the last one of the declaration. -/
def validateNonce (candidate : Nonce) (declaration : Declaration) : Except SdpError Unit := do
  failIf (candidate.lifecycleEpoch ≠ declaration.created)
    (.invalidNonceLifecycle candidate.lifecycleEpoch declaration.created)
  failIf (candidate.sequence ≤ declaration.nonce.sequence)
    (.invalidNonceSequence candidate.sequence declaration.nonce.sequence)

omit [Primitives] in
theorem validateNonce_ok {candidate : Nonce} {declaration : Declaration} {u : Unit}
    (h : validateNonce candidate declaration = .ok u) :
    candidate.lifecycleEpoch = declaration.created ∧
      declaration.nonce.sequence < candidate.sequence := by
  obtain ⟨_, h1, h2⟩ := bind_ok h
  grind [failIf_ok]

/-! ## Declare -/

namespace SDPDeclareOp

def preverify (op : SDPDeclareOp) (proof : ZkAndEd25519Proof) (txHash : TxHash) :
    Except SdpError Unit :=
  failIf (!Primitives.ed25519Verify op.providerId txHash proof.ed25519Sig) .invalidEddsaSignature

/-- Declaration and provider are new, and the note is free and worth enough. -/
def validate (op : SDPDeclareOp) (note : Note) (channels : Channels) (declarations : Declarations)
    (providerIndex : ProviderIndex) (serviceNotes : ServiceNotes) (minStake : MinStake) :
    Except SdpError Unit := do
  failIf (declarations.lookup op.id).isSome (.duplicateDeclaration op.id)
  failIf (providerIndex.lookup op.providerId).isSome
    (.duplicateProviderId op.serviceType op.providerId)
  failIf (channels.isChannelNote op.serviceNoteId) (.channelNote op.serviceNoteId)
  failIf (note.value < minStake.threshold) (.noteInsufficientValue op.serviceNoteId note.value)
  failIf (serviceNotes.isUsedForService op.serviceNoteId op.serviceType)
    (.noteAlreadyUsedForService op.serviceNoteId op.serviceType)

/-- The declaration is valid; the signature is left to check. -/
def verify (op : SDPDeclareOp) (proof : ZkAndEd25519Proof) (utxos : Utxos) (channels : Channels)
    (serviceNotes : ServiceNotes) (txHash : TxHash) (declarations : Declarations)
    (providerIndex : ProviderIndex) (minStake : MinStake) :
    Except SdpError (ZkSignature × ZkSignInputs) := do
  let utxo ← okOr (utxos.get op.serviceNoteId) (.inexistingNote op.serviceNoteId)
  let inputs ← okOr (Primitives.publicInputsFromPks txHash [utxo.note.pk, op.zkId])
    .invalidZkSignature
  op.validate utxo.note channels declarations providerIndex serviceNotes minStake
  return (proof.zkSig, inputs)

/-- `verify` without a signature to check. -/
def verifyGenesis (op : SDPDeclareOp) (utxos : Utxos) (channels : Channels)
    (serviceNotes : ServiceNotes) (declarations : Declarations) (providerIndex : ProviderIndex)
    (minStake : MinStake) : Except SdpError Unit := do
  let utxo ← okOr (utxos.get op.serviceNoteId) (.inexistingNote op.serviceNoteId)
  op.validate utxo.note channels declarations providerIndex serviceNotes minStake

/-- Adds the declaration, and the note serves. -/
def execute (op : SDPDeclareOp) (r : Registrations) (utxos : Utxos) (epoch : Nat)
    (minStake : MinStake) : Result SdpError Registrations := do
  let utxo ← expect (utxos.get op.serviceNoteId) .declaredNote
  let serviceNotes ← lift (fun _ => .unexpectedError)
    (r.serviceNotes.lock minStake op.serviceType op.id utxo.note op.serviceNoteId)
  return ⟨r.declarations.insert op.id (.new epoch op), r.providerIndex.insert op.providerId op.id,
    serviceNotes⟩

variable {op : SDPDeclareOp} {minStake : MinStake} {channels : Channels}
  {declarations : Declarations} {providerIndex : ProviderIndex} {serviceNotes : ServiceNotes}
  {utxos : Utxos}

theorem validate_ok {note : Note} {u : Unit}
    (h : op.validate note channels declarations providerIndex serviceNotes minStake = .ok u) :
    channels.channelNotes.lookup op.serviceNoteId = none := by
  obtain ⟨_, -, h1⟩ := bind_ok h
  obtain ⟨_, -, h2⟩ := bind_ok h1
  obtain ⟨_, h3, -⟩ := bind_ok h2
  rw [failIf_ok, Bool.not_eq_true] at h3
  exact Channels.isChannelNote_eq_false.mp h3

theorem verify_ok {proof : ZkAndEd25519Proof} {txHash : TxHash} {p : ZkSignature × ZkSignInputs}
    (h : op.verify proof utxos channels serviceNotes txHash
      declarations providerIndex minStake = .ok p) :
    channels.channelNotes.lookup op.serviceNoteId = none := by
  obtain ⟨_, -, h1⟩ := bind_ok h
  obtain ⟨_, -, h2⟩ := bind_ok h1
  obtain ⟨_, h3, -⟩ := bind_ok h2
  exact validate_ok h3

/-- The note is there, and the declaration uses it. -/
theorem execute_ok {r r' : Registrations} {epoch : Nat}
    (h : op.execute r utxos epoch minStake = .ok r') :
    ∃ u, utxos.get op.serviceNoteId = some u ∧ r.serviceNotes.lock minStake op.serviceType op.id
      u.note op.serviceNoteId = .ok r'.serviceNotes := by
  obtain ⟨u, h1, h2⟩ := bind_ok h
  obtain ⟨_, h3, h4⟩ := bind_ok h2
  cases h4
  exact ⟨u, expect_ok.mp h1, lift_ok.mp h3⟩

end SDPDeclareOp

/-! ## Active -/

namespace SDPActiveOp

/-- The declaration may report up to the epoch of its withdrawal. -/
def verify (op : SDPActiveOp) (proof : ZkSignature) (declaration : Declaration) (txHash : TxHash)
    (epoch : Nat) : Except SdpError (ZkSignature × ZkSignInputs) := do
  validateDeclarationId op.declarationId declaration
  if let some withdrawAt := declaration.withdrawAt then
    failIf (withdrawAt < epoch) (.declarationWithdrawn op.declarationId withdrawAt)
  validateNonce op.nonce declaration
  let inputs ← okOr (Primitives.publicInputsFromPks txHash [declaration.zkId]) .invalidZkSignature
  return (proof, inputs)

def execute (op : SDPActiveOp) (declarations : Declarations) (epoch : Nat) :
    Result SdpError Declarations := do
  let declaration ← expect (declarations.lookup op.declarationId) .declaration
  return declarations.insert op.declarationId
    { declaration with active := epoch, nonce := op.nonce }

theorem verify_nonce {op : SDPActiveOp} {proof : ZkSignature} {declaration : Declaration}
    {txHash : TxHash} {epoch : Nat} {p : ZkSignature × ZkSignInputs}
    (h : op.verify proof declaration txHash epoch = .ok p) :
    op.nonce.lifecycleEpoch = declaration.created ∧
      declaration.nonce.sequence < op.nonce.sequence := by
  obtain ⟨_, -, h1⟩ := bind_ok h
  cases hw : declaration.withdrawAt with
  | none =>
    rw [hw] at h1
    obtain ⟨_, h2, -⟩ := bind_ok h1
    exact validateNonce_ok h2
  | some withdrawAt =>
    rw [hw] at h1
    obtain ⟨_, -, h2⟩ := bind_ok h1
    obtain ⟨_, h3, -⟩ := bind_ok h2
    exact validateNonce_ok h3

end SDPActiveOp

/-! ## Withdraw -/

namespace SDPWithdrawOp

/-- The declaration is not withdrawn and its note is bound to it. -/
def verify (op : SDPWithdrawOp) (proof : ZkSignature) (declaration : Declaration)
    (serviceNotes : ServiceNotes) (txHash : TxHash) :
    Except SdpError (ZkSignature × ZkSignInputs) := do
  validateDeclarationId op.declarationId declaration
  if let some withdrawAt := declaration.withdrawAt then
    throw (.declarationWithdrawn op.declarationId withdrawAt)
  let note ← okOr (serviceNotes.get declaration.serviceNoteId)
    (.notAServiceNote declaration.serviceNoteId)
  failIf (!serviceNotes.isUsedByDeclaration declaration.serviceNoteId declaration.serviceType
      op.declarationId)
    (.noteNotUsedForService declaration.serviceNoteId declaration.serviceType)
  validateNonce op.nonce declaration
  let inputs ← okOr (Primitives.publicInputsFromPks txHash [note.pk, declaration.zkId])
    .invalidZkSignature
  return (proof, inputs)

def execute (op : SDPWithdrawOp) (declarations : Declarations) (epoch : Nat) :
    Result SdpError Declarations := do
  let declaration ← expect (declarations.lookup op.declarationId) .declaration
  return declarations.insert op.declarationId { declaration with
    withdrawAt := some (epoch + snapshotFinalizationDelay), nonce := op.nonce }

theorem verify_nonce {op : SDPWithdrawOp} {proof : ZkSignature} {declaration : Declaration}
    {serviceNotes : ServiceNotes} {txHash : TxHash} {p : ZkSignature × ZkSignInputs}
    (h : op.verify proof declaration serviceNotes txHash = .ok p) :
    declaration.withdrawAt = none ∧ op.nonce.lifecycleEpoch = declaration.created ∧
      declaration.nonce.sequence < op.nonce.sequence := by
  obtain ⟨_, -, h1⟩ := bind_ok h
  cases hw : declaration.withdrawAt with
  | none =>
    rw [hw] at h1
    obtain ⟨_, -, h2⟩ := bind_ok h1
    obtain ⟨_, -, h3⟩ := bind_ok h2
    obtain ⟨_, h4, -⟩ := bind_ok h3
    exact ⟨rfl, validateNonce_ok h4⟩
  | some withdrawAt =>
    rw [hw] at h1
    cases h1

end SDPWithdrawOp

end Logos.Mantle
