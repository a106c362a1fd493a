import LogosChain.Base.Except
import LogosChain.Mantle.Types

/-!
# What the ledger takes from outside

`Primitives` has the hash functions, the signature and proof checks and the lengths that the ledger
calls. Every result holds for every choice of them, or names the property it needs.

A call ends with a result, with an error, or with a panic (`Failure`): an `expect` or an assertion
that fails.
-/

namespace Logos.Mantle

open Base

/-! ## Outcomes -/

/-- An `expect`, an assertion or an index. -/
inductive Panic where
  /-- The turn of a channel is the index of one of its keys. -/
  | sequencerIndex
  /-- "The operation should have been checked" -/
  | declaredNote
  /-- "The operation should have been validated" -/
  | declaration
  /-- "service was checked before execution" -/
  | service
  /-- "withdrawn declaration must own its service-note binding" -/
  | withdrawnBinding
  /-- "Pool funding is check in validation so this computation should always be valid" -/
  | powPool
  /-- "Existence should be check in verification" -/
  | powAnchor
  /-- "Vouchers MMR shouldn't be full" -/
  | vouchersFull
  /-- "Logos blockchain lived long and prospered" -/
  | blockNumber
  /-- The epoch of the leader's proof is the epoch of the state. -/
  | proofEpoch
  /-- The epoch that ends is the current epoch of the rewards, and a later one starts. -/
  | rewardsEpoch
  /-- "evaluation parameters shouldn't overflow. panicking since we can't process the new epoch" -/
  | tokenEvaluation
  /-- "number of providers must be >= minimum_network_size" -/
  | networkSize
  /-- "`ledger` precedes `self.epoch`, so it is not the genesis epoch" -/
  | genesisEpoch
  /-- "Block density computation overflow." and "Tx density computation overflow." -/
  | txDensity
  /-- "After precision it should fit in a u64" -/
  | totalStake
  /-- A slot or a number of slots does not fit its word: an overflow of `nonce_contribution_period`
  or of the slots computed with it. -/
  | slotNumber
  /-- "No more transactions than the era allows are selected." -/
  | blockTransactions
deriving DecidableEq, Repr

/-- How a call ends without a result. -/
inductive Failure (ε : Type) where
  | error (e : ε)
  | panic (p : Panic)
deriving DecidableEq, Repr

/-- A call that ends with a result, an error of `ε` or a panic. -/
abbrev Result (ε α : Type) := Except (Failure ε) α

variable {ε ε' α : Type} {f : ε → ε'} {a : α}

def Failure.map (f : ε → ε') : Failure ε → Failure ε'
  | .error e => .error (f e)
  | .panic p => .panic p

/-- The call with its errors under another error. -/
def wrap (f : ε → ε') (x : Result ε α) : Result ε' α := x.mapError (Failure.map f)

/-- A call that cannot panic, with its errors under another. -/
def lift (f : ε → ε') (x : Except ε α) : Result ε' α := x.mapError fun e => .error (f e)

/-- A value that must be there. -/
def expect (o : Option α) (p : Panic) : Result ε α := okOr o (.panic p)

@[simp]
theorem wrap_ok {x : Result ε α} : wrap f x = .ok a ↔ x = .ok a :=
  mapError_ok

@[simp]
theorem lift_ok {x : Except ε α} : lift f x = .ok a ↔ x = .ok a :=
  mapError_ok

@[simp]
theorem expect_ok {o : Option α} {p : Panic} : (expect o p : Result ε α) = .ok a ↔ o = some a :=
  okOr_ok

/-- A panic at one of some places. -/
def Failure.PanicAt (ps : List Panic) : Failure ε → Prop
  | .error _ => False
  | .panic p => p ∈ ps

/-- A call does not panic at some places. -/
abbrev NoPanic (ps : List Panic) (x : Result ε α) : Prop := Avoids (Failure.PanicAt ps) x

namespace NoPanic

variable {ps : List Panic} {x : Result ε α} {p : Panic}

theorem ne (h : NoPanic ps x) (hp : p ∈ ps) : x ≠ .error (.panic p) :=
  fun hx => h _ hx hp

theorem wrap {f : ε → ε'} (h : NoPanic ps x) : NoPanic ps (wrap f x) := by
  intro e he
  obtain ⟨e', h1, rfl⟩ := mapError_error.mp he
  cases e' with
  | error e => exact id
  | panic p => exact h _ h1

theorem lift (f : ε → ε') (x : Except ε α) : NoPanic ps (lift f x) := by
  intro e he
  obtain ⟨e', -, rfl⟩ := mapError_error.mp he
  exact id

theorem failIf (c : Prop) [Decidable c] (e : ε) : NoPanic ps (failIf c (.error e)) :=
  Avoids.failIf fun _ => id

theorem okOr (o : Option α) (e : ε) : NoPanic ps (okOr o (.error e)) :=
  Avoids.okOr fun _ => id

theorem expect {o : Option α} (h : p ∉ ps) : NoPanic ps (expect o p : Result ε α) :=
  Avoids.okOr fun _ => h

end NoPanic

/-! ## Proofs -/

/-- What a proof of leadership is checked against. -/
structure LeaderPublic where
  agedRoot : Fr
  latestRoot : Fr
  epochNonce : Fr
  slot : Nat
  lottery0 : Fr
  lottery1 : Fr
deriving DecidableEq, Repr

/-- A proof of leadership (`Groth16LeaderProof`). -/
structure LeaderProof where
  proof : Nat
  entropyContribution : Fr
  leaderKey : Ed25519PublicKey
  voucherCm : VoucherCm
deriving DecidableEq, Repr

/-- The public inputs of a signature (`ZkSignVerifierInputs`). -/
abbrev ZkSignInputs := Nat

/-- The public inputs of a proof of claim (`PoCVerifierInput`). -/
structure PoCInput where
  voucherNullifier : VoucherNullifier
  voucherRoot : RewardsRoot
  txHash : TxHash
deriving DecidableEq, Repr

/-- What quota proofs are checked against (`PoQVerificationInputsMinusSigningKey`). -/
structure PoQInputs where
  zkRoot : Fr
  coreQuota : Nat
  polLedgerAged : Fr
  polEpochNonce : Fr
  messageQuota : Nat
  lottery0 : Fr
  lottery1 : Fr
  powBlendDifficulty : Fr
  powQuota : Nat
deriving DecidableEq, Repr

/-- How tokens are evaluated (`BlendingTokenEvaluation`). -/
structure TokenEvaluation where
  tokenCountByteLen : Nat
  activityThreshold : Nat
deriving DecidableEq, Repr

/-- The rewards of the Blend network. The frequency is kept by its bits. -/
structure RewardsParameters where
  roundsPerEpoch : Nat
  messageFrequencyPerRound : Nat
  coverReplicationFactor : Nat
  numBlendLayers : Nat
  dataReplicationFactor : Nat
  minimumNetworkSize : Nat
  activityThresholdSensitivity : Nat
deriving DecidableEq, Repr

/-- The hashes, checks and lengths that the ledger calls. -/
class Primitives where
  noteId : Utxo → NoteId
  opId : Op → Hash
  inscriptionId : InscriptionOp → MsgId
  channelConfigId : ChannelConfigOp → MsgId
  /-- The hash of a transaction covers its fork digest and its operations. -/
  txHash : ForkDigest → List Op → TxHash
  /-- `DeclarationId::derive`. -/
  declarationId : ServiceType → ZkPublicKey → DeclarationId
  /-- `ZkHasher::digest`. -/
  zkHash : List Fr → Fr
  /-- `create_reward_op_id`. -/
  rewardOpId : Nat → ServiceType → Hash
  /-- The nonce after a block: of the nonce, the contribution of the proof and the slot. -/
  epochNonce : Fr → Fr → Nat → Fr
  /-- The compression of two nodes of a Merkle tree. -/
  compress : Fr → Fr → Fr
  /-- The root of the keys of the core nodes of an epoch. -/
  zkRoot : List Fr → Fr
  /-- The length of the canonical encoding of a fork digest and operations (`OpRefs`). -/
  opsEncodedLength : ForkDigest → List Op → Nat
  ed25519SignatureSize : Nat
  compressedProofSize : Nat
  ed25519Verify : Ed25519PublicKey → TxHash → Ed25519Signature → Bool
  /-- `UnverifiedEd25519PublicKey::is_weak`. -/
  isWeak : Ed25519PublicKey → Bool
  /-- `public_inputs_from_pks`. -/
  publicInputsFromPks : TxHash → List ZkPublicKey → Option ZkSignInputs
  /-- `LeaderClaimProof::verify`. -/
  leaderClaimVerify : LeaderClaimProof → PoCInput → Bool
  /-- `lb_zksign::batch_verify`; there is no answer on a malformed proof. -/
  zkSignBatchVerify : List (ZkSignature × ZkSignInputs) → Option Bool
  /-- `lb_poc::batch_verify`; there is no answer on a malformed proof. -/
  pocBatchVerify : List (LeaderClaimProof × PoCInput) → Option Bool
  /-- `LeaderProof::verify`. -/
  leaderVerify : LeaderProof → LeaderPublic → Bool
  /-- `ActivityProof::verify_and_build`, with the index of the node and how many there are. -/
  activityVerify : PoQInputs → ActivityProof → Nat → Nat → Bool
  /-- The Hamming distance of the token of a proof to the randomness of an epoch. -/
  tokenDistance : Nat → ActivityProof → Fr → Nat
  /-- `core_quota_and_token_evaluation`, of the number of core nodes. -/
  coreQuotaAndTokenEvaluation : RewardsParameters → Nat → Option (Nat × TokenEvaluation)

variable [Primitives]

def Utxo.id (u : Utxo) : NoteId := Primitives.noteId u

def SignedOps.hash (tx : SignedOps) : TxHash :=
  Primitives.txHash tx.forkDigest (tx.ops.map SignedOp.operation)

/-- The number of signatures, then each with its index. -/
def ChannelMultiSigProof.encodedLength (proof : ChannelMultiSigProof) : Nat :=
  2 + proof.signatures.length * (2 + Primitives.ed25519SignatureSize)

/-- The length of a proof (`OpProofRef::encoded_length`). -/
def SignedOp.proofEncodedLength : SignedOp → Nat
  | .channelInscribe _ _ => Primitives.ed25519SignatureSize
  | .channelConfig _ proof => proof.encodedLength
  | .channelDeposit _ _ => Primitives.compressedProofSize
  | .channelWithdraw _ proof => proof.encodedLength
  | .channelTransfer _ proof => proof.encodedLength
  | .sdpDeclare _ _ => Primitives.compressedProofSize + Primitives.ed25519SignatureSize
  | .sdpWithdraw _ _ => Primitives.compressedProofSize
  | .sdpActive _ _ => Primitives.compressedProofSize
  | .leaderClaim _ _ => Primitives.compressedProofSize
  | .transfer _ _ => Primitives.compressedProofSize
  | .claimPowReward _ => 0

/-- The length of a transaction: digest, operations, proofs. -/
def SignedOps.storageSize (tx : SignedOps) : Nat :=
  Primitives.opsEncodedLength tx.forkDigest (tx.ops.map SignedOp.operation) +
    (tx.ops.map SignedOp.proofEncodedLength).sum

/-! ## Proofs checked together -/

/-- The proofs of a block that are checked together (`DeferredProofs`). -/
structure DeferredProofs where
  zkSigs : List (ZkSignature × ZkSignInputs)
  leaderClaims : List (LeaderClaimProof × PoCInput)
deriving DecidableEq, Repr

/-- Which batch of proofs is refused. -/
inductive BatchError where
  | invalidZkSignatures
  | malformedZkSignature
  | invalidLeaderClaimProofs
  | malformedLeaderClaimProof
deriving DecidableEq, Repr

namespace DeferredProofs

def empty : DeferredProofs := ⟨[], []⟩

def extend (a b : DeferredProofs) : DeferredProofs :=
  ⟨a.zkSigs ++ b.zkSigs, a.leaderClaims ++ b.leaderClaims⟩

/-- The answer of a batch verifier as an outcome. -/
def batchResult (answer : Option Bool) (invalid malformed : BatchError) : Except BatchError Unit :=
  match answer with
  | some true => .ok ()
  | some false => .error invalid
  | none => .error malformed

def verifyZkSigs (proofs : List (ZkSignature × ZkSignInputs)) : Except BatchError Unit :=
  if proofs.isEmpty then .ok ()
  else batchResult (Primitives.zkSignBatchVerify proofs) .invalidZkSignatures .malformedZkSignature

def verifyLeaderClaims (proofs : List (LeaderClaimProof × PoCInput)) : Except BatchError Unit :=
  if proofs.isEmpty then .ok ()
  else batchResult (Primitives.pocBatchVerify proofs) .invalidLeaderClaimProofs
    .malformedLeaderClaimProof

/-- Checks both batches. -/
def verify (p : DeferredProofs) : Except BatchError Unit := do
  verifyZkSigs p.zkSigs
  verifyLeaderClaims p.leaderClaims

end DeferredProofs

/-- A verifier of batches that is right about each proof. -/
structure BatchDecides {π : Type} (verify : List π → Option Bool) (valid : π → Prop) : Prop where
  /-- A batch succeeds whenever each of its proofs is valid on its own. -/
  complete : ∀ l ≠ [], (∀ p ∈ l, valid p) → verify l = some true
  /-- A batch that succeeds has no invalid proof. -/
  sound : ∀ l, verify l = some true → ∀ p ∈ l, valid p

omit [Primitives] in
theorem BatchDecides.all {π : Type} : BatchDecides (fun _ : List π => some true) fun _ => True :=
  ⟨fun _ _ _ => rfl, fun _ _ _ _ => trivial⟩

namespace DeferredProofs

variable {zkValid : ZkSignature × ZkSignInputs → Prop} {pocValid : LeaderClaimProof × PoCInput → Prop}
  {d d' : DeferredProofs}

omit [Primitives] in
@[simp]
theorem batchResult_ok {answer : Option Bool} {invalid malformed : BatchError} {u : Unit} :
    batchResult answer invalid malformed = .ok u ↔ answer = some true := by
  unfold batchResult
  split <;> simp

/-- Every proof is valid on its own. -/
structure Valid (zkValid : ZkSignature × ZkSignInputs → Prop)
    (pocValid : LeaderClaimProof × PoCInput → Prop) (d : DeferredProofs) : Prop where
  zkSigs : ∀ p ∈ d.zkSigs, zkValid p
  leaderClaims : ∀ p ∈ d.leaderClaims, pocValid p

omit [Primitives] in
theorem Valid.empty : Valid zkValid pocValid .empty := ⟨nofun, nofun⟩

omit [Primitives] in
theorem Valid.extend (h : Valid zkValid pocValid d) (h' : Valid zkValid pocValid d') :
    Valid zkValid pocValid (d.extend d') :=
  ⟨List.forall_mem_append.mpr ⟨h.zkSigs, h'.zkSigs⟩,
    List.forall_mem_append.mpr ⟨h.leaderClaims, h'.leaderClaims⟩⟩

/-- The proofs of a batch are checked together exactly if each of them is valid. -/
theorem verify_ok_iff (hzk : BatchDecides Primitives.zkSignBatchVerify zkValid)
    (hpoc : BatchDecides Primitives.pocBatchVerify pocValid) :
    d.verify = .ok () ↔ Valid zkValid pocValid d := by
  have hz : verifyZkSigs d.zkSigs = .ok () ↔ ∀ p ∈ d.zkSigs, zkValid p := by
    unfold verifyZkSigs
    split
    · simp_all
    · rename_i hne
      rw [batchResult_ok]
      exact ⟨hzk.sound _, hzk.complete _ (by simpa using hne)⟩
  have hp : verifyLeaderClaims d.leaderClaims = .ok () ↔ ∀ p ∈ d.leaderClaims, pocValid p := by
    unfold verifyLeaderClaims
    split
    · simp_all
    · rename_i hne
      rw [batchResult_ok]
      exact ⟨hpoc.sound _, hpoc.complete _ (by simpa using hne)⟩
  constructor
  · intro h
    obtain ⟨_, h1, h2⟩ := bind_ok h
    exact ⟨hz.mp h1, hp.mp h2⟩
  · rintro ⟨h1, h2⟩
    exact ok_bind (hz.mpr h1) (hp.mpr h2)

end DeferredProofs

/-! ## Primitives that can be run -/

/-- Every check passes, ids come from inputs, and only operations have a size. -/
@[reducible]
def Primitives.plain : Primitives where
  noteId u := 1000 * u.opId + u.outputIndex
  opId
    | .channelInscribe op => 16 * op.channelId
    | .channelConfig op => 16 * op.channel + 1
    | .channelDeposit op => 16 * op.inputs.ids.sum + 2
    | .channelWithdraw op => 16 * op.inputs.ids.sum + 3
    | .channelTransfer op => 16 * op.inputs.ids.sum + 4
    | .sdpDeclare op => 16 * op.serviceNoteId + 5
    | .sdpWithdraw op => 16 * op.declarationId + 6
    | .sdpActive op => 16 * op.declarationId + 7
    | .leaderClaim op => 16 * op.voucherNullifier + 8
    | .transfer op => 16 * op.inputs.ids.sum + 9
    | .claimPowReward op => 16 * op.publicKey + 10
  inscriptionId op := op.parent + 1
  channelConfigId op := op.parent + 1
  txHash _ ops := ops.length
  declarationId _ zkId := zkId
  zkHash inputs := inputs.headD 0
  rewardOpId epoch _ := 16 * epoch + 11
  epochNonce nonce contribution slot := nonce + contribution + slot
  compress _ _ := 0
  zkRoot _ := 0
  opsEncodedLength _ ops := ops.length
  ed25519SignatureSize := 0
  compressedProofSize := 0
  ed25519Verify _ _ _ := true
  isWeak _ := false
  publicInputsFromPks _ _ := some 0
  leaderClaimVerify _ _ := true
  zkSignBatchVerify _ := some true
  pocBatchVerify _ := some true
  leaderVerify _ _ := true
  activityVerify _ _ _ _ := true
  tokenDistance _ _ _ := 0
  coreQuotaAndTokenEvaluation _ _ := some (1, ⟨1, 1⟩)

end Logos.Mantle
