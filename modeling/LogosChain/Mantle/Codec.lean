import LogosChain.Mantle.Wire

/-!
# The encoding of transactions (`core/src/mantle/ops`, `core/src/mantle/transactions/tx_list`)

An operation is written as its code and its fields. A signed transaction is written in columns: the
fork digest, the number of operations, the operations, and the proofs without a count of their own.
`Typed` says of a value that each number fits the type that the code has for it.
-/

namespace Logos.Mantle

open Base Wire List

/-- The largest size of an inscription or of metadata. -/
def maxOpData : Nat := 2 ^ 32 - 1

/-! ## Notes -/

namespace Note

def codec : Codec DecodeError Note :=
  (u64.pair fr).imap (fun x => ⟨x.1, x.2⟩) fun n => (n.value, n.pk)

def Typed (n : Note) : Prop := n.value < 2 ^ 64 ∧ n.pk < frModulus

theorem codec_canonical : codec.Canonical Typed :=
  (u64_canonical.pair fr_canonical).imap (fun _ hx => ⟨rfl, hx⟩) fun _ hn => ⟨hn, rfl⟩

theorem codec_encode_ne_nil (n : Note) : codec.encode n ≠ [] := cons_ne_nil _ _

end Note

namespace Inputs

/-- The items are different and within the bounds, so the conversion does not fail. -/
def codec : Codec DecodeError Inputs :=
  ((orderedSet "BoundedInputs" 0 maxTransactionInputs fr).attach
      (fun ids => ids.Nodup ∧ ids.length ≤ maxTransactionInputs)
      (.invalidValue "Inputs" conversionFailed)).imap
    (fun x => ⟨x.1, x.2.1, x.2.2⟩) fun i => ⟨i.ids, i.nodup, i.bounded⟩

def Typed (i : Inputs) : Prop := ∀ id ∈ i.ids, id < frModulus

theorem codec_canonical : codec.Canonical Typed := by
  refine .imap (.attach (orderedSet_canonical fr_canonical (by decide)) _ _) ?_ ?_
  · exact fun x hx => ⟨rfl, hx.2.1⟩
  · exact fun i hi => ⟨⟨⟨Nat.zero_le _, i.bounded⟩, hi, i.nodup⟩, rfl⟩

theorem codec_encodedLength (i : Inputs) : codec.encodedLength i = 1 + i.ids.length * 32 := by
  change 1 + (i.ids.map fun _ => 32).sum = _
  rw [map_const', sum_replicate_nat]

end Inputs

namespace Outputs

/-- The vector keeps the bound, so the conversion does not fail. -/
def codec : Codec DecodeError Outputs :=
  ((boundedVec "BoundedOutputs" "Note" 0 maxTransactionInputs Note.codec).attach
      (fun notes => notes.length ≤ maxTransactionInputs)
      (.invalidValue "Outputs" conversionFailed)).imap
    (fun x => ⟨x.1, x.2⟩) fun o => ⟨o.notes, o.bounded⟩

def Typed (o : Outputs) : Prop := ∀ n ∈ o.notes, n.Typed

theorem codec_canonical : codec.Canonical Typed := by
  refine .imap (.attach (boundedVec_canonical Note.codec_canonical (by decide)
    (.inl fun n _ => n.codec_encode_ne_nil)) _ _) ?_ ?_
  · exact fun x hx => ⟨rfl, hx.2⟩
  · exact fun o ho => ⟨⟨⟨Nat.zero_le _, o.bounded⟩, ho⟩, rfl⟩

theorem codec_encodedLength (o : Outputs) : codec.encodedLength o = 1 + o.notes.length * 40 := by
  change 1 + (o.notes.map fun _ => 40).sum = _
  rw [map_const', sum_replicate_nat]

end Outputs

/-! ## Operations on channels -/

section

variable [Primitives] [Leaves]

namespace ChannelKeys

/-- The vector keeps the bounds, so the conversion does not fail. -/
def codec : Codec DecodeError ChannelKeys :=
  ((boundedVec "VerifiedChannelKeys" "PublicKey" 1 channelMaxKeys publicKey).attach
      (fun keys => keys ≠ [] ∧ keys.length ≤ channelMaxKeys)
      (.invalidValue "VerifiedChannelKeys" conversionFailed)).imap
    (fun x => ⟨x.1, x.2.1, x.2.2⟩) fun k => ⟨k.keys, k.nonempty, k.bounded⟩

def Typed (k : ChannelKeys) : Prop := ∀ key ∈ k.keys, IsPublicKey key

omit [Leaves] [Primitives] in
theorem byteArray_encode_ne_nil (n : Nat) : (byteArray 32).encode n ≠ [] := cons_ne_nil _ _

theorem codec_canonical : codec.Canonical Typed := by
  refine .imap (.attach (boundedVec_canonical publicKey_canonical (by decide)
    (.inl fun key _ => byteArray_encode_ne_nil key)) _ _) ?_ ?_
  · exact fun x hx => ⟨rfl, hx.2⟩
  · exact fun k hk => ⟨⟨⟨length_pos_iff.mpr k.nonempty, k.bounded⟩, hk⟩, rfl⟩

end ChannelKeys

namespace InscriptionOp

omit [Primitives]

def codec (maxInscriptionSize : Nat) : Codec DecodeError InscriptionOp :=
  (hash.pair ((runtimeBoundedBytes "Inscription" maxInscriptionSize).pair
      (hash.pair unverifiedKey))).imap
    (fun x => ⟨x.1, x.2.1, x.2.2.1, x.2.2.2⟩)
    fun op => (op.channelId, op.inscription, op.parent, op.signer)

def Typed (max : Nat) (op : InscriptionOp) : Prop :=
  op.channelId < 256 ^ 32 ∧ (op.inscription.length ≤ max ∧ ∀ b ∈ op.inscription, b < 256) ∧
    op.parent < 256 ^ 32 ∧ IsUnverifiedKey op.signer

theorem codec_canonical {max : Nat} (hmax : max ≤ maxOpData) : (codec max).Canonical (Typed max) :=
  ((byteArray_canonical 32).pair ((runtimeBoundedBytes_canonical (Nat.lt_of_le_pred (by decide)
    hmax)).pair ((byteArray_canonical 32).pair unverifiedKey_canonical))).imap
    (fun _ hx => ⟨rfl, hx⟩) fun _ hop => ⟨hop, rfl⟩

end InscriptionOp

namespace ChannelConfigOp

/-- The fields as they are read (`ChannelConfigFields`). -/
def fieldsCodec : Codec DecodeError (ChannelId × MsgId × ChannelKeys × Nat × Nat × Nat × Nat) :=
  hash.pair (hash.pair (ChannelKeys.codec.pair
    (u32.pair (u32.pair (nonZeroU16.pair nonZeroU16)))))

/-- A threshold that the keys cannot meet is refused. -/
def tryFromFields (x : ChannelId × MsgId × ChannelKeys × Nat × Nat × Nat × Nat) :
    Except DecodeError ChannelConfigOp :=
  if h : (0 < x.2.2.2.2.2.1 ∧ 0 < x.2.2.2.2.2.2) ∧ x.2.2.2.2.2.1 ≤ x.2.2.1.keys.length then
    .ok ⟨x.1, x.2.1, x.2.2.1, x.2.2.2.1, x.2.2.2.2.1, x.2.2.2.2.2.1, x.2.2.2.2.2.2, h.1.1, h.1.2, h.2⟩
  else .error (.invalidValue "ChannelConfigOp" conversionFailed)

def codec : Codec DecodeError ChannelConfigOp :=
  fieldsCodec.tryMap tryFromFields fun op =>
    (op.channel, op.parent, op.keys, op.postingTimeframe, op.postingTimeout,
      op.configurationThreshold, op.transferThreshold)

def Typed (op : ChannelConfigOp) : Prop :=
  op.channel < 256 ^ 32 ∧ op.parent < 256 ^ 32 ∧ op.keys.Typed ∧ op.postingTimeframe < 2 ^ 32 ∧
    op.postingTimeout < 2 ^ 32 ∧ op.configurationThreshold < 2 ^ 16 ∧ op.transferThreshold < 2 ^ 16

theorem codec_canonical : codec.Canonical Typed := by
  have hfields := (byteArray_canonical 32).pair ((byteArray_canonical 32).pair
    (ChannelKeys.codec_canonical.pair (u32_canonical.pair (u32_canonical.pair
      (nonZeroU16_canonical.pair nonZeroU16_canonical)))))
  refine hfields.tryMap (fun x op hx h => ?_) fun op hop => ⟨?_, dif_pos ?_⟩
  · unfold tryFromFields at h
    split at h
    · cases h
      obtain ⟨hchannel, hparent, hkeys, hframe, htimeout, hconfig, htransfer⟩ := hx
      exact ⟨rfl, hchannel, hparent, hkeys, hframe, htimeout, hconfig.1, htransfer.1⟩
    · cases h
  · obtain ⟨hchannel, hparent, hkeys, hframe, htimeout, hconfig, htransfer⟩ := hop
    grind [configurationThreshold_pos, transferThreshold_pos]
  · exact ⟨⟨op.configurationThreshold_pos, op.transferThreshold_pos⟩, op.configurationThreshold_le⟩

end ChannelConfigOp

end

namespace DepositOp

def codec (maxMetadataSize : Nat) : Codec DecodeError DepositOp :=
  (hash.pair (Inputs.codec.pair (runtimeBoundedBytes "Metadata" maxMetadataSize))).imap
    (fun x => ⟨x.1, x.2.1, x.2.2⟩) fun op => (op.channelId, op.inputs, op.metadata)

def Typed (max : Nat) (op : DepositOp) : Prop :=
  op.channelId < 256 ^ 32 ∧ op.inputs.Typed ∧ op.metadata.length ≤ max ∧ ∀ b ∈ op.metadata, b < 256

theorem codec_canonical {max : Nat} (hmax : max ≤ maxOpData) : (codec max).Canonical (Typed max) :=
  ((byteArray_canonical 32).pair (Inputs.codec_canonical.pair
    (runtimeBoundedBytes_canonical (Nat.lt_of_le_pred (by decide) hmax)))).imap
    (fun _ hx => ⟨rfl, hx⟩) fun _ hop => ⟨hop, rfl⟩

end DepositOp

namespace ChannelWithdrawOp

def codec : Codec DecodeError ChannelWithdrawOp :=
  (hash.pair Inputs.codec).imap (fun x => ⟨x.1, x.2⟩) fun op => (op.channelId, op.inputs)

def Typed (op : ChannelWithdrawOp) : Prop := op.channelId < 256 ^ 32 ∧ op.inputs.Typed

theorem codec_canonical : codec.Canonical Typed :=
  ((byteArray_canonical 32).pair Inputs.codec_canonical).imap (fun _ hx => ⟨rfl, hx⟩)
    fun _ hop => ⟨hop, rfl⟩

end ChannelWithdrawOp

namespace ChannelTransferOp

def codec : Codec DecodeError ChannelTransferOp :=
  (hash.pair (Inputs.codec.pair Outputs.codec)).imap (fun x => ⟨x.1, x.2.1, x.2.2⟩)
    fun op => (op.channelId, op.inputs, op.outputs)

def Typed (op : ChannelTransferOp) : Prop :=
  op.channelId < 256 ^ 32 ∧ op.inputs.Typed ∧ op.outputs.Typed

theorem codec_canonical : codec.Canonical Typed :=
  ((byteArray_canonical 32).pair (Inputs.codec_canonical.pair Outputs.codec_canonical)).imap
    (fun _ hx => ⟨rfl, hx⟩) fun _ hop => ⟨hop, rfl⟩

end ChannelTransferOp

/-! ## Operations of the service declaration protocol -/

namespace ServiceType

def toU8 : ServiceType → Nat
  | .blendNetwork => 0

def tryFromU8 (n : Nat) : Except DecodeError ServiceType :=
  match n with
  | 0 => .ok .blendNetwork
  | _ => .error (.invalidValue "ServiceType" conversionFailed)

def codec : Codec DecodeError ServiceType := u8.tryMap tryFromU8 toU8

theorem codec_canonical : codec.Canonical fun _ => True := by
  refine u8_canonical.tryMap (fun n s _ h => ?_) fun s _ => ?_
  · unfold tryFromU8 at h
    split at h
    · cases h
      exact ⟨rfl, trivial⟩
    · cases h
  · cases s with
    | blendNetwork => exact ⟨by decide, rfl⟩

end ServiceType

namespace Nonce

/-- Both parts in one word. -/
def packed (n : Nonce) : Nat := n.lifecycleEpoch <<< 32 ||| n.sequence

def fromPacked (n : Nat) : Nonce := ⟨(n >>> 32) % 2 ^ 32, n % 2 ^ 32⟩

def codec : Codec DecodeError Nonce := u64.imap fromPacked packed

def Typed (n : Nonce) : Prop := n.lifecycleEpoch < 2 ^ 32 ∧ n.sequence < 2 ^ 32

theorem packed_eq {n : Nonce} (hn : n.Typed) : n.packed = 2 ^ 32 * n.lifecycleEpoch + n.sequence := by
  rw [packed, ← Nat.shiftLeft_add_eq_or_of_lt hn.2, Nat.shiftLeft_eq, Nat.mul_comm]

theorem codec_canonical : codec.Canonical Typed := by
  refine u64_canonical.imap (fun n hn => ?_) fun n hn => ?_
  · have htyped : (fromPacked n).Typed := ⟨Nat.mod_lt _ (by decide), Nat.mod_lt _ (by decide)⟩
    grind [packed_eq, fromPacked, Nat.shiftRight_eq_div_pow]
  · obtain ⟨hepoch, hsequence⟩ := hn
    rw [packed_eq ⟨hepoch, hsequence⟩]
    refine ⟨by omega, ?_⟩
    have hhigh : (2 ^ 32 * n.lifecycleEpoch + n.sequence) / 2 ^ 32 = n.lifecycleEpoch := by omega
    have hlow : (2 ^ 32 * n.lifecycleEpoch + n.sequence) % 2 ^ 32 = n.sequence := by omega
    simp only [fromPacked, Nat.shiftRight_eq_div_pow, hhigh, hlow, Nat.mod_eq_of_lt hepoch]

end Nonce

section

variable [Primitives] [Leaves]

namespace ActivityProof

def codec : Codec DecodeError ActivityProof :=
  (u32.pair (publicKey.pair (Wire.proofOfQuota.pair Wire.proofOfSelection))).imap
    (fun x => ⟨x.1, x.2.1, x.2.2.1, x.2.2.2⟩)
    fun p => (p.epoch, p.signingKey, p.proofOfQuota, p.proofOfSelection)

def Typed (p : ActivityProof) : Prop :=
  p.epoch < 2 ^ 32 ∧ IsPublicKey p.signingKey ∧ IsProofOfQuota p.proofOfQuota ∧
    p.proofOfSelection < frModulus

theorem codec_canonical : codec.Canonical Typed :=
  (u32_canonical.pair (publicKey_canonical.pair
    (proofOfQuota_canonical.pair proofOfSelection_canonical))).imap
    (fun _ hx => ⟨rfl, hx⟩) fun _ hp => ⟨hp, rfl⟩

end ActivityProof

namespace ActivityMetadata

def activeMetadataBlendType : Nat := 1

def codec : Codec DecodeError ActivityMetadata where
  encode
    | .blend proof => u8.encode activeMetadataBlendType ++ ActivityProof.codec.encode proof
  encodedLength
    | .blend proof =>
      u8.encodedLength activeMetadataBlendType + ActivityProof.codec.encodedLength proof
  decode b := do
    let (b, metadataType) ← u8.decode b
    if metadataType = activeMetadataBlendType then ActivityProof.codec.decodeAs .blend b
    else .error (.unknownDiscriminant "ActivityMetadata" metadataType)

def Typed : ActivityMetadata → Prop
  | .blend proof => proof.Typed

theorem codec_canonical : codec.Canonical Typed where
  sound h := by
    obtain ⟨⟨b1, metadataType⟩, h1, h2⟩ := bind_ok h
    obtain ⟨-, rfl⟩ := u8_canonical.sound h1
    dsimp only at h2
    split at h2
    · rename_i htype
      obtain ⟨proof, rfl, hproof, rfl⟩ := ActivityProof.codec_canonical.decodeAs_iff.mp h2
      subst htype
      exact ⟨hproof, append_assoc _ _ _⟩
    · cases h2
  complete {v} rest hv := by
    obtain ⟨proof⟩ := v
    have htype : activeMetadataBlendType < 256 := by decide
    have h1 := u8_canonical.complete (ActivityProof.codec.encode proof ++ rest) htype
    rw [← append_assoc] at h1
    refine ok_bind h1 ((if_pos rfl).trans ?_)
    exact ActivityProof.codec_canonical.decodeAs_iff.mpr ⟨proof, rfl, hv, rfl⟩
  length {v} hv := by
    obtain ⟨proof⟩ := v
    simp only [codec, length_append, ActivityProof.codec_canonical.length hv]
    rfl

end ActivityMetadata

namespace SDPDeclareOp

def maxDeclarationLocatorCount : Nat := 8

def codec : Codec DecodeError SDPDeclareOp :=
  (ServiceType.codec.pair ((orderedSet "Locators" 1 maxDeclarationLocatorCount locator).pair
      (publicKey.pair (fr.pair fr)))).imap
    (fun x => ⟨x.1, x.2.1, x.2.2.1, x.2.2.2.1, x.2.2.2.2⟩)
    fun op => (op.serviceType, op.locators, op.providerId, op.zkId, op.serviceNoteId)

def Typed (op : SDPDeclareOp) : Prop :=
  ((1 ≤ op.locators.length ∧ op.locators.length ≤ maxDeclarationLocatorCount) ∧
    (∀ l ∈ op.locators, (∀ b ∈ l, b < 256) ∧ IsLocator l) ∧ op.locators.Nodup) ∧
    IsPublicKey op.providerId ∧ op.zkId < frModulus ∧ op.serviceNoteId < frModulus

theorem codec_canonical : codec.Canonical Typed :=
  (ServiceType.codec_canonical.pair ((orderedSet_canonical locator_canonical (by decide)).pair
    (publicKey_canonical.pair (fr_canonical.pair fr_canonical)))).imap
    (fun _ hx => ⟨rfl, hx.2⟩) fun _ hop => ⟨⟨trivial, hop⟩, rfl⟩

end SDPDeclareOp

namespace SDPActiveOp

def codec : Codec DecodeError SDPActiveOp :=
  (hash.pair (Nonce.codec.pair ActivityMetadata.codec)).imap (fun x => ⟨x.1, x.2.1, x.2.2⟩)
    fun op => (op.declarationId, op.nonce, op.metadata)

def Typed (op : SDPActiveOp) : Prop :=
  op.declarationId < 256 ^ 32 ∧ op.nonce.Typed ∧ op.metadata.Typed

theorem codec_canonical : codec.Canonical Typed :=
  ((byteArray_canonical 32).pair (Nonce.codec_canonical.pair
    ActivityMetadata.codec_canonical)).imap (fun _ hx => ⟨rfl, hx⟩) fun _ hop => ⟨hop, rfl⟩

end SDPActiveOp

end

namespace SDPWithdrawOp

def codec : Codec DecodeError SDPWithdrawOp :=
  (hash.pair Nonce.codec).imap (fun x => ⟨x.1, x.2⟩) fun op => (op.declarationId, op.nonce)

def Typed (op : SDPWithdrawOp) : Prop := op.declarationId < 256 ^ 32 ∧ op.nonce.Typed

theorem codec_canonical : codec.Canonical Typed :=
  ((byteArray_canonical 32).pair Nonce.codec_canonical).imap (fun _ hx => ⟨rfl, hx⟩)
    fun _ hop => ⟨hop, rfl⟩

end SDPWithdrawOp

/-! ## Transfers and claims -/

namespace LeaderClaimOp

def codec : Codec DecodeError LeaderClaimOp :=
  (fr.pair (fr.pair fr)).imap (fun x => ⟨x.1, x.2.1, x.2.2⟩)
    fun op => (op.rewardsRoot, op.voucherNullifier, op.pk)

def Typed (op : LeaderClaimOp) : Prop :=
  op.rewardsRoot < frModulus ∧ op.voucherNullifier < frModulus ∧ op.pk < frModulus

theorem codec_canonical : codec.Canonical Typed :=
  (fr_canonical.pair (fr_canonical.pair fr_canonical)).imap (fun _ hx => ⟨rfl, hx⟩)
    fun _ hop => ⟨hop, rfl⟩

end LeaderClaimOp

namespace TransferOp

def codec : Codec DecodeError TransferOp :=
  (Inputs.codec.pair Outputs.codec).imap (fun x => ⟨x.1, x.2⟩) fun op => (op.inputs, op.outputs)

def Typed (op : TransferOp) : Prop := op.inputs.Typed ∧ op.outputs.Typed

theorem codec_canonical : codec.Canonical Typed :=
  (Inputs.codec_canonical.pair Outputs.codec_canonical).imap (fun _ hx => ⟨rfl, hx⟩)
    fun _ hop => ⟨hop, rfl⟩

end TransferOp

namespace ClaimPowRewardOp

def codec : Codec DecodeError ClaimPowRewardOp :=
  (fr.pair (hash.pair fr)).imap (fun x => ⟨x.1, x.2.1, x.2.2⟩)
    fun op => (op.epochNonce, op.blockHash, op.publicKey)

def Typed (op : ClaimPowRewardOp) : Prop :=
  op.epochNonce < frModulus ∧ op.blockHash < 256 ^ 32 ∧ op.publicKey < frModulus

theorem codec_canonical : codec.Canonical Typed :=
  (fr_canonical.pair ((byteArray_canonical 32).pair fr_canonical)).imap (fun _ hx => ⟨rfl, hx⟩)
    fun _ hop => ⟨hop, rfl⟩

end ClaimPowRewardOp

/-! ## An operation -/

namespace Op

/-- The byte that an operation starts with. -/
def code : Op → Nat
  | .channelInscribe _ => 0x11
  | .channelConfig _ => 0x10
  | .channelDeposit _ => 0x12
  | .channelWithdraw _ => 0x13
  | .channelTransfer _ => 0x14
  | .sdpDeclare _ => 0x20
  | .sdpWithdraw _ => 0x21
  | .sdpActive _ => 0x22
  | .leaderClaim _ => 0x30
  | .transfer _ => 0x00
  | .claimPowReward _ => 0x40

theorem code_lt (op : Op) : op.code < 256 := by
  cases op <;> simp [code]

section

variable [Primitives] [Leaves] {max : Nat} {op : Op}

/-- The fields of the operation, without the maximum of data. -/
def encodePayload : Op → Bytes
  | .channelInscribe op => (InscriptionOp.codec maxOpData).encode op
  | .channelConfig op => ChannelConfigOp.codec.encode op
  | .channelDeposit op => (DepositOp.codec maxOpData).encode op
  | .channelWithdraw op => ChannelWithdrawOp.codec.encode op
  | .channelTransfer op => ChannelTransferOp.codec.encode op
  | .sdpDeclare op => SDPDeclareOp.codec.encode op
  | .sdpWithdraw op => SDPWithdrawOp.codec.encode op
  | .sdpActive op => SDPActiveOp.codec.encode op
  | .leaderClaim op => LeaderClaimOp.codec.encode op
  | .transfer op => TransferOp.codec.encode op
  | .claimPowReward op => ClaimPowRewardOp.codec.encode op

/-- The length of the fields. -/
def payloadLength : Op → Nat
  | .channelInscribe op => (InscriptionOp.codec maxOpData).encodedLength op
  | .channelConfig op => ChannelConfigOp.codec.encodedLength op
  | .channelDeposit op => (DepositOp.codec maxOpData).encodedLength op
  | .channelWithdraw op => ChannelWithdrawOp.codec.encodedLength op
  | .channelTransfer op => ChannelTransferOp.codec.encodedLength op
  | .sdpDeclare op => SDPDeclareOp.codec.encodedLength op
  | .sdpWithdraw op => SDPWithdrawOp.codec.encodedLength op
  | .sdpActive op => SDPActiveOp.codec.encodedLength op
  | .leaderClaim op => LeaderClaimOp.codec.encodedLength op
  | .transfer op => TransferOp.codec.encodedLength op
  | .claimPowReward op => ClaimPowRewardOp.codec.encodedLength op

/-- Reads the fields of the operation with a code. -/
def decodePayload (maxOpDataSize opcode : Nat) (b : Bytes) : Except DecodeError (Bytes × Op) :=
  match opcode with
  | 0x11 => (InscriptionOp.codec maxOpDataSize).decodeAs .channelInscribe b
  | 0x10 => ChannelConfigOp.codec.decodeAs .channelConfig b
  | 0x12 => (DepositOp.codec maxOpDataSize).decodeAs .channelDeposit b
  | 0x13 => ChannelWithdrawOp.codec.decodeAs .channelWithdraw b
  | 0x14 => ChannelTransferOp.codec.decodeAs .channelTransfer b
  | 0x20 => SDPDeclareOp.codec.decodeAs .sdpDeclare b
  | 0x21 => SDPWithdrawOp.codec.decodeAs .sdpWithdraw b
  | 0x22 => SDPActiveOp.codec.decodeAs .sdpActive b
  | 0x30 => LeaderClaimOp.codec.decodeAs .leaderClaim b
  | 0x00 => TransferOp.codec.decodeAs .transfer b
  | 0x40 => ClaimPowRewardOp.codec.decodeAs .claimPowReward b
  | other => .error (.unknownDiscriminant "Op" other)

def codec (maxOpDataSize : Nat) : Codec DecodeError Op where
  encode op := u8.encode op.code ++ op.encodePayload
  encodedLength op := u8.encodedLength op.code + op.payloadLength
  decode b := do
    let (b, opcode) ← u8.decode b
    decodePayload maxOpDataSize opcode b

/-- A value of the type, with at most `max` bytes of data. -/
def TypedWithin (max : Nat) : Op → Prop
  | .channelInscribe op => op.Typed max
  | .channelConfig op => op.Typed
  | .channelDeposit op => op.Typed max
  | .channelWithdraw op => op.Typed
  | .channelTransfer op => op.Typed
  | .sdpDeclare op => op.Typed
  | .sdpWithdraw op => op.Typed
  | .sdpActive op => op.Typed
  | .leaderClaim op => op.Typed
  | .transfer op => op.Typed
  | .claimPowReward op => op.Typed

/-- A value of the type of the code. -/
def Typed (op : Op) : Prop := op.TypedWithin maxOpData

omit [Primitives] [Leaves] in
/-- The bytes of data that an operation carries. -/
def dataSize : Op → Nat
  | .channelInscribe op => op.inscription.length
  | .channelDeposit op => op.metadata.length
  | _ => 0

theorem typedWithin_iff (hmax : max ≤ maxOpData) :
    op.TypedWithin max ↔ op.Typed ∧ op.dataSize ≤ max := by
  cases op with
  | channelInscribe op =>
    constructor
    · rintro ⟨hchannel, ⟨hlen, hbytes⟩, hrest⟩
      exact ⟨⟨hchannel, ⟨hlen.trans hmax, hbytes⟩, hrest⟩, hlen⟩
    · rintro ⟨⟨hchannel, ⟨-, hbytes⟩, hrest⟩, hlen⟩
      exact ⟨hchannel, ⟨hlen, hbytes⟩, hrest⟩
  | channelDeposit op =>
    constructor
    · rintro ⟨hchannel, hinputs, hlen, hbytes⟩
      exact ⟨⟨hchannel, hinputs, hlen.trans hmax, hbytes⟩, hlen⟩
    · rintro ⟨⟨hchannel, hinputs, -, hbytes⟩, hlen⟩
      exact ⟨hchannel, hinputs, hlen, hbytes⟩
  | _ => exact (and_iff_left (Nat.zero_le max)).symm

theorem decodePayload_sound {opcode : Nat} (hmax : max ≤ maxOpData) {b rest : Bytes}
    (h : decodePayload max opcode b = .ok (rest, op)) :
    op.code = opcode ∧ op.TypedWithin max ∧ op.encodePayload ++ rest = b := by
  unfold decodePayload at h
  split at h
  · obtain ⟨op, rfl, hop⟩ := (InscriptionOp.codec_canonical hmax).decodeAs_iff.mp h
    exact ⟨rfl, hop⟩
  · obtain ⟨op, rfl, hop⟩ := ChannelConfigOp.codec_canonical.decodeAs_iff.mp h
    exact ⟨rfl, hop⟩
  · obtain ⟨op, rfl, hop⟩ := (DepositOp.codec_canonical hmax).decodeAs_iff.mp h
    exact ⟨rfl, hop⟩
  · obtain ⟨op, rfl, hop⟩ := ChannelWithdrawOp.codec_canonical.decodeAs_iff.mp h
    exact ⟨rfl, hop⟩
  · obtain ⟨op, rfl, hop⟩ := ChannelTransferOp.codec_canonical.decodeAs_iff.mp h
    exact ⟨rfl, hop⟩
  · obtain ⟨op, rfl, hop⟩ := SDPDeclareOp.codec_canonical.decodeAs_iff.mp h
    exact ⟨rfl, hop⟩
  · obtain ⟨op, rfl, hop⟩ := SDPWithdrawOp.codec_canonical.decodeAs_iff.mp h
    exact ⟨rfl, hop⟩
  · obtain ⟨op, rfl, hop⟩ := SDPActiveOp.codec_canonical.decodeAs_iff.mp h
    exact ⟨rfl, hop⟩
  · obtain ⟨op, rfl, hop⟩ := LeaderClaimOp.codec_canonical.decodeAs_iff.mp h
    exact ⟨rfl, hop⟩
  · obtain ⟨op, rfl, hop⟩ := TransferOp.codec_canonical.decodeAs_iff.mp h
    exact ⟨rfl, hop⟩
  · obtain ⟨op, rfl, hop⟩ := ClaimPowRewardOp.codec_canonical.decodeAs_iff.mp h
    exact ⟨rfl, hop⟩
  · cases h

theorem decodePayload_complete (hmax : max ≤ maxOpData) (hop : op.TypedWithin max) (rest : Bytes) :
    decodePayload max op.code (op.encodePayload ++ rest) = .ok (rest, op) := by
  cases op with
  | channelInscribe op =>
    exact (InscriptionOp.codec_canonical hmax).decodeAs_iff.mpr ⟨op, rfl, hop, rfl⟩
  | channelConfig op => exact ChannelConfigOp.codec_canonical.decodeAs_iff.mpr ⟨op, rfl, hop, rfl⟩
  | channelDeposit op =>
    exact (DepositOp.codec_canonical hmax).decodeAs_iff.mpr ⟨op, rfl, hop, rfl⟩
  | channelWithdraw op =>
    exact ChannelWithdrawOp.codec_canonical.decodeAs_iff.mpr ⟨op, rfl, hop, rfl⟩
  | channelTransfer op =>
    exact ChannelTransferOp.codec_canonical.decodeAs_iff.mpr ⟨op, rfl, hop, rfl⟩
  | sdpDeclare op => exact SDPDeclareOp.codec_canonical.decodeAs_iff.mpr ⟨op, rfl, hop, rfl⟩
  | sdpWithdraw op => exact SDPWithdrawOp.codec_canonical.decodeAs_iff.mpr ⟨op, rfl, hop, rfl⟩
  | sdpActive op => exact SDPActiveOp.codec_canonical.decodeAs_iff.mpr ⟨op, rfl, hop, rfl⟩
  | leaderClaim op => exact LeaderClaimOp.codec_canonical.decodeAs_iff.mpr ⟨op, rfl, hop, rfl⟩
  | transfer op => exact TransferOp.codec_canonical.decodeAs_iff.mpr ⟨op, rfl, hop, rfl⟩
  | claimPowReward op =>
    exact ClaimPowRewardOp.codec_canonical.decodeAs_iff.mpr ⟨op, rfl, hop, rfl⟩

theorem payloadLength_eq (hop : op.Typed) : op.payloadLength = op.encodePayload.length := by
  cases op with
  | channelInscribe op => exact (InscriptionOp.codec_canonical le_rfl).length hop
  | channelConfig op => exact ChannelConfigOp.codec_canonical.length hop
  | channelDeposit op => exact (DepositOp.codec_canonical le_rfl).length hop
  | channelWithdraw op => exact ChannelWithdrawOp.codec_canonical.length hop
  | channelTransfer op => exact ChannelTransferOp.codec_canonical.length hop
  | sdpDeclare op => exact SDPDeclareOp.codec_canonical.length hop
  | sdpWithdraw op => exact SDPWithdrawOp.codec_canonical.length hop
  | sdpActive op => exact SDPActiveOp.codec_canonical.length hop
  | leaderClaim op => exact LeaderClaimOp.codec_canonical.length hop
  | transfer op => exact TransferOp.codec_canonical.length hop
  | claimPowReward op => exact ClaimPowRewardOp.codec_canonical.length hop

theorem codec_canonical (hmax : max ≤ maxOpData) : (codec max).Canonical (TypedWithin max) where
  sound h := by
    obtain ⟨⟨b1, opcode⟩, h1, h2⟩ := bind_ok h
    obtain ⟨hop, htyped, rfl⟩ := decodePayload_sound hmax h2
    obtain ⟨-, rfl⟩ := u8_canonical.sound h1
    subst hop
    exact ⟨htyped, append_assoc _ _ _⟩
  complete {op} rest hop := by
    have h1 := u8_canonical.complete (op.encodePayload ++ rest) op.code_lt
    rw [← append_assoc] at h1
    exact ok_bind h1 (decodePayload_complete hmax hop rest)
  length {op} hop := by
    grind [payloadLength_eq, typedWithin_iff, codec, Codec.Canonical.length, u8_canonical, code_lt]

theorem codec_encode_ne_nil (op : Op) : (codec max).encode op ≠ [] :=
  cons_ne_nil _ _

end

end Op

/-! ## Proofs -/

/-- The proof of an operation, by its kind. -/
inductive OpProof where
  | ed25519Sig (proof : Ed25519Signature)
  | zkSig (proof : ZkSignature)
  | zkAndEd25519Sigs (proof : ZkAndEd25519Proof)
  | poc (proof : LeaderClaimProof)
  | channelMultiSigProof (proof : ChannelMultiSigProof)
  | none
deriving DecidableEq

namespace ChannelMultiSigProof

def maxSignatures : Nat := 65535

/-- The keys come in order, so the conversion does not fail. -/
def codec : Codec DecodeError ChannelMultiSigProof :=
  ((bTreeMap "IndexedSignatures" 0 maxSignatures u16 ed25519Signature).attach
      (fun signatures => (signatures.map (·.1)).Pairwise (· < ·))
      (.invalidValue "ChannelMultiSigProof" conversionFailed)).imap
    (fun x => ⟨x.1, x.2⟩) fun p => ⟨p.signatures, p.sorted⟩

def Typed (p : ChannelMultiSigProof) : Prop :=
  p.signatures.length ≤ maxSignatures ∧
    ∀ s ∈ p.signatures, s.1 < 2 ^ 16 ∧ s.2 < 256 ^ ed25519SignatureSize

theorem codec_canonical : codec.Canonical Typed := by
  refine .imap (.attach (bTreeMap_canonical u16_canonical (byteArray_canonical _) (by decide))
    _ _) ?_ ?_
  · exact fun x hx => ⟨rfl, hx.1.2, hx.2.1⟩
  · exact fun p hp => ⟨⟨⟨Nat.zero_le _, hp.1⟩, hp.2, p.sorted⟩, rfl⟩

end ChannelMultiSigProof

namespace ZkAndEd25519Proof

def codec : Codec DecodeError ZkAndEd25519Proof :=
  (groth16Proof.pair ed25519Signature).imap (fun x => ⟨x.1, x.2⟩) fun p => (p.zkSig, p.ed25519Sig)

def Typed (p : ZkAndEd25519Proof) : Prop :=
  p.zkSig < 256 ^ compressedProofSize ∧ p.ed25519Sig < 256 ^ ed25519SignatureSize

theorem codec_canonical : codec.Canonical Typed :=
  ((byteArray_canonical _).pair (byteArray_canonical _)).imap (fun _ hx => ⟨rfl, hx⟩)
    fun _ hp => ⟨hp, rfl⟩

end ZkAndEd25519Proof

namespace OpProof

def encode : OpProof → Bytes
  | .ed25519Sig proof => ed25519Signature.encode proof
  | .zkSig proof => groth16Proof.encode proof
  | .zkAndEd25519Sigs proof => ZkAndEd25519Proof.codec.encode proof
  | .poc proof => groth16Proof.encode proof
  | .channelMultiSigProof proof => ChannelMultiSigProof.codec.encode proof
  | .none => []

def encodedLength : OpProof → Nat
  | .ed25519Sig proof => ed25519Signature.encodedLength proof
  | .zkSig proof => groth16Proof.encodedLength proof
  | .zkAndEd25519Sigs proof => ZkAndEd25519Proof.codec.encodedLength proof
  | .poc proof => groth16Proof.encodedLength proof
  | .channelMultiSigProof proof => ChannelMultiSigProof.codec.encodedLength proof
  | .none => 0

/-- Reads the kind of proof that an operation has. -/
def decodeForOp (b : Bytes) : Op → Except DecodeError (Bytes × OpProof)
  | .channelInscribe _ => ed25519Signature.decodeAs .ed25519Sig b
  | .channelConfig _ => ChannelMultiSigProof.codec.decodeAs .channelMultiSigProof b
  | .channelDeposit _ => groth16Proof.decodeAs .zkSig b
  | .channelWithdraw _ => ChannelMultiSigProof.codec.decodeAs .channelMultiSigProof b
  | .channelTransfer _ => ChannelMultiSigProof.codec.decodeAs .channelMultiSigProof b
  | .sdpDeclare _ => ZkAndEd25519Proof.codec.decodeAs .zkAndEd25519Sigs b
  | .sdpWithdraw _ => groth16Proof.decodeAs .zkSig b
  | .sdpActive _ => groth16Proof.decodeAs .zkSig b
  | .leaderClaim _ => groth16Proof.decodeAs .poc b
  | .transfer _ => groth16Proof.decodeAs .zkSig b
  | .claimPowReward _ => Codec.unit.decodeAs (fun _ => .none) b

def Typed : OpProof → Prop
  | .ed25519Sig proof => proof < 256 ^ ed25519SignatureSize
  | .zkSig proof => proof < 256 ^ compressedProofSize
  | .zkAndEd25519Sigs proof => proof.Typed
  | .poc proof => proof < 256 ^ compressedProofSize
  | .channelMultiSigProof proof => proof.Typed
  | .none => True

theorem encodedLength_eq {proof : OpProof} (h : proof.Typed) :
    proof.encodedLength = proof.encode.length := by
  cases proof with
  | ed25519Sig proof => exact (byteArray_canonical _).length h
  | zkSig proof => exact (byteArray_canonical _).length h
  | zkAndEd25519Sigs proof => exact ZkAndEd25519Proof.codec_canonical.length h
  | poc proof => exact (byteArray_canonical _).length h
  | channelMultiSigProof proof => exact ChannelMultiSigProof.codec_canonical.length h
  | none => rfl

end OpProof

namespace SignedOp

/-- The proof of a signed operation. -/
def proof : SignedOp → OpProof
  | .channelInscribe _ proof => .ed25519Sig proof
  | .channelConfig _ proof => .channelMultiSigProof proof
  | .channelDeposit _ proof => .zkSig proof
  | .channelWithdraw _ proof => .channelMultiSigProof proof
  | .channelTransfer _ proof => .channelMultiSigProof proof
  | .sdpDeclare _ proof => .zkAndEd25519Sigs proof
  | .sdpWithdraw _ proof => .zkSig proof
  | .sdpActive _ proof => .zkSig proof
  | .leaderClaim _ proof => .poc proof
  | .transfer _ proof => .zkSig proof
  | .claimPowReward _ => .none

/-- Pairs an operation with a proof of its kind. -/
def tryFrom (op : Op) (proof : OpProof) : Except (Op × OpProof) SignedOp :=
  match op, proof with
  | .channelInscribe op, .ed25519Sig proof => .ok (.channelInscribe op proof)
  | .channelConfig op, .channelMultiSigProof proof => .ok (.channelConfig op proof)
  | .channelDeposit op, .zkSig proof => .ok (.channelDeposit op proof)
  | .channelWithdraw op, .channelMultiSigProof proof => .ok (.channelWithdraw op proof)
  | .channelTransfer op, .channelMultiSigProof proof => .ok (.channelTransfer op proof)
  | .sdpDeclare op, .zkAndEd25519Sigs proof => .ok (.sdpDeclare op proof)
  | .sdpWithdraw op, .zkSig proof => .ok (.sdpWithdraw op proof)
  | .sdpActive op, .zkSig proof => .ok (.sdpActive op proof)
  | .leaderClaim op, .poc proof => .ok (.leaderClaim op proof)
  | .transfer op, .zkSig proof => .ok (.transfer op proof)
  | .claimPowReward op, .none => .ok (.claimPowReward op)
  | op, proof => .error (op, proof)

variable {op : Op} {proof : OpProof} {signed : SignedOp}

theorem tryFrom_ok :
    tryFrom op proof = .ok signed ↔ signed.operation = op ∧ signed.proof = proof := by
  constructor
  · intro h
    unfold tryFrom at h
    split at h <;> cases h <;> exact ⟨rfl, rfl⟩
  · rintro ⟨rfl, rfl⟩
    cases signed <;> rfl

/-- The proof that is read is of the kind of the operation. -/
theorem decodeForOp_sound {b rest : Bytes} (h : OpProof.decodeForOp b op = .ok (rest, proof)) :
    (∃ signed, tryFrom op proof = .ok signed) ∧ proof.Typed ∧ proof.encode ++ rest = b := by
  cases op with
  | channelInscribe op =>
    obtain ⟨proof, rfl, hproof⟩ := (byteArray_canonical _).decodeAs_iff.mp h
    exact ⟨⟨_, rfl⟩, hproof⟩
  | channelConfig op | channelWithdraw op | channelTransfer op =>
    obtain ⟨proof, rfl, hproof⟩ := ChannelMultiSigProof.codec_canonical.decodeAs_iff.mp h
    exact ⟨⟨_, rfl⟩, hproof⟩
  | sdpDeclare op =>
    obtain ⟨proof, rfl, hproof⟩ := ZkAndEd25519Proof.codec_canonical.decodeAs_iff.mp h
    exact ⟨⟨_, rfl⟩, hproof⟩
  | claimPowReward op =>
    cases h
    exact ⟨⟨_, rfl⟩, trivial, rfl⟩
  | _ =>
    -- A compressed Groth16 proof.
    obtain ⟨proof, rfl, hproof⟩ := (byteArray_canonical _).decodeAs_iff.mp h
    exact ⟨⟨_, rfl⟩, hproof⟩

theorem decodeForOp_complete (h : signed.proof.Typed) (rest : Bytes) :
    OpProof.decodeForOp (signed.proof.encode ++ rest) signed.operation =
      .ok (rest, signed.proof) := by
  cases signed with
  | channelConfig op proof | channelWithdraw op proof | channelTransfer op proof =>
    exact ChannelMultiSigProof.codec_canonical.decodeAs_iff.mpr ⟨proof, rfl, h, rfl⟩
  | sdpDeclare op proof =>
    exact ZkAndEd25519Proof.codec_canonical.decodeAs_iff.mpr ⟨proof, rfl, h, rfl⟩
  | claimPowReward op => rfl
  | _ op proof =>
    -- A signature or a compressed Groth16 proof.
    exact (byteArray_canonical _).decodeAs_iff.mpr ⟨proof, rfl, h, rfl⟩

end SignedOp

/-! ## A signed transaction -/

def maxOpsPerTx : Nat := 255

/-- A transaction without its proofs. -/
structure Ops where
  forkDigest : ForkDigest
  ops : List Op
deriving DecidableEq

namespace OpProofs

/-- The loop of `decode_with_ops`. -/
def decodeEach : List Op → Bytes → Except DecodeError (Bytes × List OpProof)
  | [], b => .ok (b, [])
  | op :: ops, b => do
    let (b, proof) ← OpProof.decodeForOp b op
    let (b, proofs) ← decodeEach ops b
    return (b, proof :: proofs)

/-- Reads a proof for each operation. -/
def decodeWithOps (b : Bytes) (ops : List Op) : Except DecodeError (Bytes × List OpProof) := do
  let (b, proofs) ← decodeEach ops b
  let count := proofs.length
  failIf (maxOpsPerTx < count) (.custom
    s!"Failed to decode OpProofs: Item count {count} exceeds maximum of {maxOpsPerTx}")
  return (b, proofs)

/-- Each proof that is read is of the kind of its operation. -/
theorem decodeEach_sound {ops : List Op} {b rest : Bytes} {proofs : List OpProof}
    (h : decodeEach ops b = .ok (rest, proofs)) :
    ∃ signed : List SignedOp, signed.map SignedOp.operation = ops ∧
      signed.map SignedOp.proof = proofs ∧ (∀ s ∈ signed, s.proof.Typed) ∧
      signed.flatMap (·.proof.encode) ++ rest = b := by
  induction ops generalizing b proofs with
  | nil =>
    cases h
    exact ⟨[], rfl, rfl, by simp, rfl⟩
  | cons op ops ih =>
    obtain ⟨⟨b1, proof⟩, h1, h⟩ := bind_ok h
    obtain ⟨⟨b2, proofs'⟩, h2, h⟩ := bind_ok h
    cases h
    obtain ⟨⟨s, hs⟩, htyped, rfl⟩ := SignedOp.decodeForOp_sound h1
    obtain ⟨rfl, rfl⟩ := SignedOp.tryFrom_ok.mp hs
    obtain ⟨signed, rfl, rfl, hall, rfl⟩ := ih h2
    refine ⟨s :: signed, rfl, rfl, forall_mem_cons.mpr ⟨htyped, hall⟩, ?_⟩
    rw [flatMap_cons, append_assoc]

theorem decodeEach_complete {signed : List SignedOp} (h : ∀ s ∈ signed, s.proof.Typed)
    (rest : Bytes) :
    decodeEach (signed.map SignedOp.operation) (signed.flatMap (·.proof.encode) ++ rest) =
      .ok (rest, signed.map SignedOp.proof) := by
  induction signed with
  | nil => rfl
  | cons s signed ih =>
    obtain ⟨hs, hall⟩ := forall_mem_cons.mp h
    rw [flatMap_cons, append_assoc]
    exact ok_bind (SignedOp.decodeForOp_complete hs _) (ok_bind (ih hall) rfl)

end OpProofs

namespace SignedOps

/-- Why operations and proofs are not a transaction. -/
inductive FromPartsError where
  | lengthMismatch (operations proofs : Nat)
  | opProofMismatch (index : Nat) (source : Op × OpProof)
  | tooManyItems (count max : Nat)
deriving DecidableEq

/-- The message, without the operation and the proof of a mismatch. -/
def FromPartsError.message : FromPartsError → String
  | .lengthMismatch operations proofs =>
    s!"The number of operations ({operations}) does not match the number of proofs ({proofs})."
  | .opProofMismatch index _ => s!"Proof for operation at index {index} does not match: "
  | .tooManyItems count max => s!"Item count {count} exceeds maximum of {max}"

/-- Pairs each operation from an index on with its proof. -/
def pairEach : Nat → List (Op × OpProof) → Except FromPartsError (List SignedOp)
  | _, [] => .ok []
  | index, (op, proof) :: pairs => do
    let signed ← (SignedOp.tryFrom op proof).mapError (.opProofMismatch index)
    let rest ← pairEach (index + 1) pairs
    return signed :: rest

/-- Pairs the operations with their proofs. -/
def fromParts (ops : Ops) (proofs : List OpProof) : Except FromPartsError SignedOps := do
  failIf (ops.ops.length ≠ proofs.length) (.lengthMismatch ops.ops.length proofs.length)
  let signed ← pairEach 0 (ops.ops.zip proofs)
  failIf (maxOpsPerTx < signed.length) (.tooManyItems signed.length maxOpsPerTx)
  return ⟨ops.forkDigest, signed⟩

theorem pairEach_proofs (signed : List SignedOp) (index : Nat) :
    pairEach index ((signed.map SignedOp.operation).zip (signed.map SignedOp.proof)) =
      .ok signed := by
  induction signed generalizing index with
  | nil => rfl
  | cons s signed ih =>
    have hs : SignedOp.tryFrom s.operation s.proof = .ok s := SignedOp.tryFrom_ok.mpr ⟨rfl, rfl⟩
    exact ok_bind (mapError_ok.mpr hs) (ok_bind (ih (index + 1)) rfl)

theorem fromParts_proofs {digest : ForkDigest} {signed : List SignedOp}
    (h : signed.length ≤ maxOpsPerTx) :
    fromParts ⟨digest, signed.map SignedOp.operation⟩ (signed.map SignedOp.proof) =
      .ok ⟨digest, signed⟩ := by
  refine ok_bind (a := ()) (failIf_ok.mpr (by simp)) (ok_bind (pairEach_proofs signed 0) ?_)
  exact ok_bind (a := ()) (failIf_ok.mpr (by omega)) rfl

end SignedOps

section

variable [Primitives] [Leaves]

namespace Ops

def codec (maxOpDataSize : Nat) : Codec DecodeError Ops :=
  (hash.pair (boundedVec "TxBoundedVec" "Op" 0 maxOpsPerTx (Op.codec maxOpDataSize))).imap
    (fun x => ⟨x.1, x.2⟩) fun ops => (ops.forkDigest, ops.ops)

def TypedWithin (max : Nat) (ops : Ops) : Prop :=
  ops.forkDigest < 256 ^ 32 ∧ ops.ops.length ≤ maxOpsPerTx ∧ ∀ op ∈ ops.ops, op.TypedWithin max

theorem codec_canonical {max : Nat} (hmax : max ≤ maxOpData) :
    (codec max).Canonical (TypedWithin max) :=
  ((byteArray_canonical 32).pair (boundedVec_canonical (Op.codec_canonical hmax) (by decide)
    (.inl fun op _ => op.codec_encode_ne_nil))).imap
    (fun _ hx => ⟨rfl, hx.1, hx.2.1.2, hx.2.2⟩)
    fun _ hops => ⟨⟨hops.1, ⟨Nat.zero_le _, hops.2.1⟩, hops.2.2⟩, rfl⟩

end Ops

namespace SignedOps

def toOps (tx : SignedOps) : Ops := ⟨tx.forkDigest, tx.ops.map SignedOp.operation⟩

def encodedLength (tx : SignedOps) : Nat :=
  (Ops.codec maxOpData).encodedLength tx.toOps + (tx.ops.map (·.proof.encodedLength)).sum

def encode (tx : SignedOps) : Bytes :=
  (Ops.codec maxOpData).encode tx.toOps ++ tx.ops.flatMap (·.proof.encode)

/-- The columns in order; each proof is read for its operation. -/
def decode (maxOpDataSize : Nat) (b : Bytes) : Except DecodeError (Bytes × SignedOps) := do
  let (b, ops) ← (Ops.codec maxOpDataSize).decode b
  let (b, proofs) ← OpProofs.decodeWithOps b ops.ops
  let tx ← (fromParts ops proofs).mapError fun e =>
    .custom ("Failed to construct SignedOps: " ++ e.message)
  return (b, tx)

/-- A value of the type of the code. -/
structure Typed (tx : SignedOps) : Prop where
  forkDigest : tx.forkDigest < 256 ^ 32
  length : tx.ops.length ≤ maxOpsPerTx
  operation : ∀ op ∈ tx.ops, op.operation.Typed
  proof : ∀ op ∈ tx.ops, op.proof.Typed

/-- Each operation carries at most the data that the era allows. -/
def WithinDataSize (max : Nat) (tx : SignedOps) : Prop :=
  ∀ op ∈ tx.ops, op.operation.dataSize ≤ max

variable {max : Nat}

theorem toOps_typedWithin (hmax : max ≤ maxOpData) {tx : SignedOps} :
    (tx.Typed ∧ tx.WithinDataSize max) ↔
      tx.toOps.TypedWithin max ∧ ∀ op ∈ tx.ops, op.proof.Typed := by
  have hops : (∀ op ∈ tx.toOps.ops, op.TypedWithin max) ↔
      (∀ op ∈ tx.ops, op.operation.Typed) ∧ tx.WithinDataSize max := by
    simp only [toOps, forall_mem_map, Op.typedWithin_iff hmax, WithinDataSize]
    exact forall₂_and
  constructor
  · rintro ⟨htyped, hwithin⟩
    refine ⟨⟨htyped.forkDigest, ?_, hops.mpr ⟨htyped.operation, hwithin⟩⟩, htyped.proof⟩
    exact (length_map _).trans_le htyped.length
  · rintro ⟨⟨hdigest, hlength, hall⟩, hproof⟩
    obtain ⟨hoperation, hwithin⟩ := hops.mp hall
    exact ⟨⟨hdigest, (length_map _).symm.trans_le hlength, hoperation, hproof⟩, hwithin⟩

/-- Signed transactions, under a maximum for the data. -/
def codec (max : Nat) : Codec DecodeError SignedOps := ⟨encode, encodedLength, decode max⟩

theorem codec_canonical (hmax : max ≤ maxOpData) :
    (codec max).Canonical fun tx => tx.Typed ∧ tx.WithinDataSize max where
  sound h := by
    obtain ⟨⟨b1, ops⟩, h1, h⟩ := bind_ok h
    obtain ⟨⟨b2, proofs⟩, h2, h⟩ := bind_ok h
    obtain ⟨⟨b3, proofs'⟩, h3, h2⟩ := bind_ok h2
    obtain ⟨_, -, h2⟩ := bind_ok h2
    cases h2
    obtain ⟨tx, h4, h⟩ := bind_ok h
    cases h
    obtain ⟨hops, rfl⟩ := (Ops.codec_canonical hmax).sound h1
    obtain ⟨signed, hsigned, rfl, hproofs, rfl⟩ := OpProofs.decodeEach_sound h3
    obtain ⟨digest, operations⟩ := ops
    subst hsigned
    have hlength : signed.length ≤ maxOpsPerTx := (length_map _).symm.trans_le hops.2.1
    rw [mapError_ok, fromParts_proofs hlength] at h4
    cases h4
    exact ⟨(toOps_typedWithin hmax).mpr ⟨hops, hproofs⟩, append_assoc _ _ _⟩
  complete {tx} rest htx := by
    obtain ⟨hops, hproofs⟩ := (toOps_typedWithin hmax).mp htx
    have h1 := (Ops.codec_canonical hmax).complete (tx.ops.flatMap (·.proof.encode) ++ rest) hops
    rw [← append_assoc] at h1
    have hlength := htx.1.length
    have h2 : OpProofs.decodeWithOps (tx.ops.flatMap (·.proof.encode) ++ rest) tx.toOps.ops =
        .ok (rest, tx.ops.map SignedOp.proof) := by
      refine ok_bind (OpProofs.decodeEach_complete hproofs rest)
        (ok_bind (a := ()) (failIf_ok.mpr ?_) rfl)
      rw [length_map]
      omega
    exact ok_bind h1 (ok_bind h2 (ok_bind (mapError_ok.mpr (fromParts_proofs hlength)) rfl))
  length {tx} htx := by
    obtain ⟨hops, hproofs⟩ := (toOps_typedWithin hmax).mp htx
    have hcolumn : (Ops.codec maxOpData).encodedLength tx.toOps =
        ((Ops.codec maxOpData).encode tx.toOps).length := (Ops.codec_canonical hmax).length hops
    have hsum : (tx.ops.map (·.proof.encodedLength)).sum =
        (tx.ops.flatMap (·.proof.encode)).length := by
      rw [length_flatMap]
      grind [map_congr_left, OpProof.encodedLength_eq]
    change encodedLength tx = (encode tx).length
    rw [encodedLength, encode, length_append, hcolumn, hsum]

/-- A signed transaction has exactly one encoding, and each one within the allowed data is read
back. -/
theorem one_encoding {max : Nat} (hmax : max ≤ maxOpData) :
    (∀ b rest tx, decode max b = .ok (rest, tx) →
      (tx.Typed ∧ tx.WithinDataSize max) ∧ tx.encode ++ rest = b) ∧
    ∀ tx : SignedOps, tx.Typed → tx.WithinDataSize max →
      (∀ rest, decode max (tx.encode ++ rest) = .ok (rest, tx)) ∧
        tx.encodedLength = tx.encode.length := by
  refine ⟨fun b rest tx h => (codec_canonical hmax).sound h, fun tx htyped hwithin => ⟨?_, ?_⟩⟩
  · exact fun rest => (codec_canonical hmax).complete rest ⟨htyped, hwithin⟩
  · exact (codec_canonical hmax).length ⟨htyped, hwithin⟩

end SignedOps

/-- What the ledger charges for are the lengths of the encoding. -/
structure EncodingLengths : Prop where
  ops : ∀ digest ops, Primitives.opsEncodedLength digest ops =
    (Ops.codec maxOpData).encodedLength ⟨digest, ops⟩
  ed25519Signature : Primitives.ed25519SignatureSize = Wire.ed25519SignatureSize
  compressedProof : Primitives.compressedProofSize = Wire.compressedProofSize

end

/-- Every key is taken, and every address is an address. -/
@[reducible]
def Leaves.plain : Leaves where
  verifyingKey _ := true
  protocols _ := some [.other]

/-- Plain primitives with the lengths of the encoding. -/
@[reducible]
def Primitives.sized : Primitives :=
  { Primitives.plain with
    opsEncodedLength := fun digest ops =>
      letI := Primitives.plain
      letI := Leaves.plain
      (Ops.codec maxOpData).encodedLength ⟨digest, ops⟩
    ed25519SignatureSize := Wire.ed25519SignatureSize
    compressedProofSize := Wire.compressedProofSize }

theorem encodingLengths_sized :
    letI := Primitives.sized
    letI := Leaves.plain
    EncodingLengths :=
  letI := Primitives.sized
  letI := Leaves.plain
  ⟨fun _ _ => rfl, rfl, rfl⟩

/-- An inscription of two bytes and a transfer of one note. -/
def SignedOps.inscribeAndTransfer : SignedOps where
  forkDigest := 7
  ops := [.channelInscribe ⟨1, [5, 6], 0, 2⟩ 9, .transfer ⟨.single 3, .single ⟨4, 8⟩⟩ 10]

theorem SignedOps.one_encoding_inscribeAndTransfer :
    letI := Primitives.plain
    letI := Leaves.plain
    2 ≤ maxOpData ∧ inscribeAndTransfer.encode.length = 403 ∧
      decode 2 (inscribeAndTransfer.encode ++ [1]) = .ok ([1], inscribeAndTransfer) := by
  let := Primitives.plain
  let := Leaves.plain
  have hmax : 2 ≤ maxOpData := by decide
  have htyped : inscribeAndTransfer.Typed := by
    refine ⟨by decide, by decide, ?_, ?_⟩
    · have hinscribe : (Op.channelInscribe ⟨1, [5, 6], 0, 2⟩).Typed :=
        ⟨by decide, ⟨by decide, by decide⟩, by decide, by decide, rfl⟩
      have htransfer : (Op.transfer ⟨.single 3, .single ⟨4, 8⟩⟩).Typed :=
        ⟨forall_mem_singleton.mpr (by decide : 3 < frModulus),
          forall_mem_singleton.mpr ⟨by decide, (by decide : 8 < frModulus)⟩⟩
      simpa [inscribeAndTransfer, SignedOp.operation] using ⟨hinscribe, htransfer⟩
    · have hsignature : (OpProof.ed25519Sig 9).Typed := (by decide : 9 < 256 ^ 64)
      have hproof : (OpProof.zkSig 10).Typed := (by decide : 10 < 256 ^ 128)
      simpa [inscribeAndTransfer, SignedOp.proof] using ⟨hsignature, hproof⟩
  have hwithin : inscribeAndTransfer.WithinDataSize 2 := by
    simp [WithinDataSize, inscribeAndTransfer, SignedOp.operation, Op.dataSize]
  obtain ⟨hdecode, hlength⟩ := (one_encoding hmax).2 _ htyped hwithin
  exact ⟨hmax, hlength.symm.trans rfl, hdecode [1]⟩

end Logos.Mantle
