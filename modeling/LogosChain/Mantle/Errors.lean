import LogosChain.Mantle.Notes

/-!
# Errors of the operations

What an operation of each kind reports when it is refused.
-/

namespace Logos.Mantle

/-- Of the operations on channels. -/
inductive ChannelError where
  | invalidParent (channelId : ChannelId) (parent actual : MsgId)
  | unauthorizedSigner (channelId : ChannelId) (signer : Ed25519PublicKey)
  | invalidSigner
  | invalidSignature
  | invalidSignatureIndex (channelId : ChannelId) (sequencers index : Nat)
  | channelNotFound (channelId : ChannelId)
  | unbalancedTransfer
  | channelNotes (e : ChannelNotesError)
  | inputs (e : InputsError)
  | outputs (e : OutputsError)
  | thresholdUnmet (channelId : ChannelId) (threshold actual : Nat)
deriving DecidableEq, Repr

/-- Of a transfer. -/
inductive TransferError where
  | inputs (e : InputsError)
  | outputs (e : OutputsError)
  | balanceOverflow
  | invalidProof
deriving DecidableEq, Repr

/-- Of the operations of services. -/
inductive SdpError where
  | inexistingNote (noteId : NoteId)
  | channelNote (noteId : NoteId)
  | invalidZkSignature
  | invalidEddsaSignature
  | duplicateDeclaration (declarationId : DeclarationId)
  | duplicateProviderId (serviceType : ServiceType) (providerId : ProviderId)
  | noteInsufficientValue (noteId : NoteId) (value : Nat)
  | noteAlreadyUsedForService (noteId : NoteId) (serviceType : ServiceType)
  | unexpectedError
  | declarationNotFound (declarationId : DeclarationId)
  | declarationIdMismatch (operationDeclarationId suppliedDeclarationId : DeclarationId)
  | serviceNotFound (serviceType : ServiceType)
  | declarationWithdrawn (declarationId : DeclarationId) (withdrawAt : Nat)
  | invalidNonceLifecycle (nonceLifecycleEpoch declarationCreatedEpoch : Nat)
  | invalidNonceSequence (nonceSequence declarationSequence : Nat)
  | notAServiceNote (noteId : NoteId)
  | noteNotUsedForService (noteId : NoteId) (serviceType : ServiceType)
deriving DecidableEq, Repr

/-- Of the claim of a leader. -/
inductive LeaderClaimError where
  | duplicatedVoucherNullifier
  | vouchersRootMismatch
  | invalidPoC
deriving DecidableEq, Repr

/-- Of the claim of a puzzle. -/
inductive ClaimPowRewardError where
  | insufficientPoolBalance (pool reward : Nat)
  | emptyRewards
  /-- The accepted nonces are the previous one, then the current one. -/
  | mismatchEpochNonce (claim : Fr) (accepted : Fr × Fr)
  | invalidPoWRewardTicket
  | doubleClaimed
  | outOfWindowSlot (slot currentSlot : Nat)
  | missingBlock (blockId : Hash)
deriving DecidableEq, Repr

/-- Why an operation of a transaction is refused. -/
inductive VerificationError where
  | channelNotFound (channelId : ChannelId)
  | keyNotFound (channelId : ChannelId) (keyIndex : Nat)
  | channelMultiSigProofNotEnoughSignatures (opIndex actual required : Nat)
  | channelMultiSigProofInvalidSignature (opIndex signatureIndex : Nat)
  | channelVerificationError (e : ChannelError)
  | transferVerificationError (e : TransferError)
  | sdpVerificationError (e : SdpError)
  | leaderClaimVerificationError (e : LeaderClaimError)
  | claimPowRewardError (e : ClaimPowRewardError)
deriving DecidableEq, Repr

end Logos.Mantle
