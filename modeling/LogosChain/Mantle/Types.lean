import LogosChain.Base.Map

/-!
# Notes, operations and transactions (`core/src/mantle`, `core/src/sdp`)

Hashes, field elements, keys, signatures and proofs are numbers: nothing here looks inside one, but
for the hash of a block that a puzzle reduces into the field. Where the code checks that a number
fits its machine word the model checks it too.
-/

namespace Logos.Mantle

/-- A 32-byte hash: of a block, of an operation. -/
abbrev Hash := Nat
/-- A field element, and so a Poseidon hash (`Fr`, `ZkHash`). -/
abbrev Fr := Nat
abbrev NoteId := Fr
abbrev TxHash := Hash
abbrev ForkDigest := Hash
abbrev ChannelId := Hash
abbrev MsgId := Hash
abbrev DeclarationId := Hash
abbrev ZkPublicKey := Fr
abbrev Ed25519PublicKey := Nat
abbrev Ed25519Signature := Nat
abbrev ZkSignature := Nat
abbrev VoucherNullifier := Fr
abbrev RewardsRoot := Fr
abbrev VoucherCm := Fr
abbrev PowNullifier := Fr
/-- The key a provider of a service signs with. -/
abbrev ProviderId := Ed25519PublicKey
/-- The bytes of a network address. -/
abbrev Locator := List Nat

/-- The order of the scalar field. -/
def frModulus : Nat :=
  21888242871839275222246405745257275088548364400416034343698204186575808495617

/-- A hash reduced into the field (`fr_from_mod_bytes`). -/
def frFromModBytes (h : Hash) : Fr := h % frModulus

/-- What comes before the first message (`MsgId::root`). -/
def MsgId.root : MsgId := 0

/-! ## Notes -/

/-- A value and the key that may spend it. -/
structure Note where
  value : Nat
  pk : ZkPublicKey
deriving DecidableEq, Repr

/-- A note at its place among the outputs of an operation. -/
structure Utxo where
  opId : Hash
  outputIndex : Nat
  note : Note
deriving DecidableEq, Repr

/-- The most inputs of an operation, and the most outputs. -/
def maxTransactionInputs : Nat := 255

/-- The notes an operation spends: a set in a fixed order. -/
structure Inputs where
  ids : List NoteId
  nodup : ids.Nodup
  bounded : ids.length ≤ maxTransactionInputs
deriving DecidableEq

def Inputs.empty : Inputs := ⟨[], List.nodup_nil, by decide⟩

def Inputs.single (id : NoteId) : Inputs := ⟨[id], List.nodup_singleton id, by simp [maxTransactionInputs]⟩

/-- The notes an operation creates. -/
structure Outputs where
  notes : List Note
  bounded : notes.length ≤ maxTransactionInputs
deriving DecidableEq

def Outputs.empty : Outputs := ⟨[], by decide⟩

def Outputs.single (note : Note) : Outputs := ⟨[note], by simp [maxTransactionInputs]⟩

/-! ## Operations on channels -/

/-- The most keys of a channel. -/
def channelMaxKeys : Nat := 65535

/-- The keys of a channel, at least one. -/
structure ChannelKeys where
  keys : List Ed25519PublicKey
  nonempty : keys ≠ []
  bounded : keys.length ≤ channelMaxKeys
deriving DecidableEq

/-- Writes a message to a channel. -/
structure InscriptionOp where
  channelId : ChannelId
  inscription : List Nat
  parent : MsgId
  signer : Ed25519PublicKey
deriving DecidableEq

/-- Sets the keys, the positive thresholds, and the turns of a channel. -/
structure ChannelConfigOp where
  channel : ChannelId
  parent : MsgId
  keys : ChannelKeys
  postingTimeframe : Nat
  postingTimeout : Nat
  configurationThreshold : Nat
  transferThreshold : Nat
  configurationThreshold_pos : 0 < configurationThreshold
  transferThreshold_pos : 0 < transferThreshold
  configurationThreshold_le : configurationThreshold ≤ keys.keys.length
deriving DecidableEq

/-- Moves notes into a channel. -/
structure DepositOp where
  channelId : ChannelId
  inputs : Inputs
  metadata : List Nat
deriving DecidableEq

/-- Releases notes from a channel. -/
structure ChannelWithdrawOp where
  channelId : ChannelId
  inputs : Inputs
deriving DecidableEq

/-- Spends notes of a channel for new notes of the channel. -/
structure ChannelTransferOp where
  channelId : ChannelId
  inputs : Inputs
  outputs : Outputs
deriving DecidableEq

/-! ## Operations of the service declaration protocol -/

/-- The services; there is one. -/
inductive ServiceType where
  | blendNetwork
deriving DecidableEq, Repr

/-- The epoch of a declaration, and a counter of its messages. -/
structure Nonce where
  lifecycleEpoch : Nat
  sequence : Nat
deriving DecidableEq, Repr

/-- What a provider proves (`sdp::blend::ActivityProof`). -/
structure ActivityProof where
  epoch : Nat
  signingKey : Ed25519PublicKey
  proofOfQuota : Nat
  proofOfSelection : Nat
deriving DecidableEq, Repr

/-- What a report of activity carries. -/
inductive ActivityMetadata where
  | blend (proof : ActivityProof)
deriving DecidableEq, Repr

/-- Declares a provider. -/
structure SDPDeclareOp where
  serviceType : ServiceType
  locators : List Locator
  providerId : ProviderId
  zkId : ZkPublicKey
  serviceNoteId : NoteId
deriving DecidableEq, Repr

/-- Withdraws a declaration. -/
structure SDPWithdrawOp where
  declarationId : DeclarationId
  nonce : Nonce
deriving DecidableEq, Repr

/-- Reports activity. -/
structure SDPActiveOp where
  declarationId : DeclarationId
  nonce : Nonce
  metadata : ActivityMetadata
deriving DecidableEq, Repr

/-! ## Transfers and claims -/

/-- Spends notes for notes. -/
structure TransferOp where
  inputs : Inputs
  outputs : Outputs
deriving DecidableEq

/-- Claims the reward of a block leader. -/
structure LeaderClaimOp where
  rewardsRoot : RewardsRoot
  voucherNullifier : VoucherNullifier
  pk : ZkPublicKey
deriving DecidableEq, Repr

/-- Claims the reward of a solved puzzle. -/
structure ClaimPowRewardOp where
  epochNonce : Fr
  blockHash : Hash
  publicKey : ZkPublicKey
deriving DecidableEq, Repr

/-! ## Transactions -/

/-- The operations. -/
inductive Op where
  | channelInscribe (op : InscriptionOp)
  | channelConfig (op : ChannelConfigOp)
  | channelDeposit (op : DepositOp)
  | channelWithdraw (op : ChannelWithdrawOp)
  | channelTransfer (op : ChannelTransferOp)
  | sdpDeclare (op : SDPDeclareOp)
  | sdpWithdraw (op : SDPWithdrawOp)
  | sdpActive (op : SDPActiveOp)
  | leaderClaim (op : LeaderClaimOp)
  | transfer (op : TransferOp)
  | claimPowReward (op : ClaimPowRewardOp)
deriving DecidableEq

/-- Signatures by the index of the key, in order. -/
structure ChannelMultiSigProof where
  signatures : List (Nat × Ed25519Signature)
  sorted : (signatures.map (·.1)).Pairwise (· < ·)
deriving DecidableEq

/-- Both signatures of a declaration. -/
structure ZkAndEd25519Proof where
  zkSig : ZkSignature
  ed25519Sig : Ed25519Signature
deriving DecidableEq, Repr

abbrev LeaderClaimProof := Nat

/-- An operation with the proof of its kind. -/
inductive SignedOp where
  | channelInscribe (op : InscriptionOp) (proof : Ed25519Signature)
  | channelConfig (op : ChannelConfigOp) (proof : ChannelMultiSigProof)
  | channelDeposit (op : DepositOp) (proof : ZkSignature)
  | channelWithdraw (op : ChannelWithdrawOp) (proof : ChannelMultiSigProof)
  | channelTransfer (op : ChannelTransferOp) (proof : ChannelMultiSigProof)
  | sdpDeclare (op : SDPDeclareOp) (proof : ZkAndEd25519Proof)
  | sdpWithdraw (op : SDPWithdrawOp) (proof : ZkSignature)
  | sdpActive (op : SDPActiveOp) (proof : ZkSignature)
  | leaderClaim (op : LeaderClaimOp) (proof : LeaderClaimProof)
  | transfer (op : TransferOp) (proof : ZkSignature)
  | claimPowReward (op : ClaimPowRewardOp)
deriving DecidableEq

/-- The operation without its proof. -/
def SignedOp.operation : SignedOp → Op
  | .channelInscribe op _ => .channelInscribe op
  | .channelConfig op _ => .channelConfig op
  | .channelDeposit op _ => .channelDeposit op
  | .channelWithdraw op _ => .channelWithdraw op
  | .channelTransfer op _ => .channelTransfer op
  | .sdpDeclare op _ => .sdpDeclare op
  | .sdpWithdraw op _ => .sdpWithdraw op
  | .sdpActive op _ => .sdpActive op
  | .leaderClaim op _ => .leaderClaim op
  | .transfer op _ => .transfer op
  | .claimPowReward op => .claimPowReward op

/-- A signed transaction: the fork digest, then its operations. -/
structure SignedOps where
  forkDigest : ForkDigest
  ops : List SignedOp
deriving DecidableEq

/-! ## Events -/

/-- A note that a deposit created in a channel. -/
structure DepositNote where
  noteId : NoteId
  value : Nat
  pk : ZkPublicKey
deriving DecidableEq, Repr

/-- What an operation shows. -/
inductive TxEventPayload where
  | deposit (channelId : ChannelId) (amount : Nat) (metadata : List Nat) (notes : List DepositNote)
  | leaderRewardClaimed (voucherNullifier : VoucherNullifier) (utxo : Utxo)
  | powRewardClaimed (powNullifier : PowNullifier) (utxo : Utxo)
deriving DecidableEq, Repr

/-- An event with its operation and transaction. -/
structure TxEvent where
  txHash : TxHash
  opId : Hash
  payload : TxEventPayload
deriving DecidableEq, Repr

/-- What a header shows. -/
inductive HeaderEvent where
  | sdpNoteUnlocked (noteId : NoteId) (serviceType : ServiceType) (declarationId : DeclarationId)
  | sdpRewardDistributed (serviceType : ServiceType) (utxo : Utxo)
deriving DecidableEq, Repr

/-- An event of a block. -/
inductive Event where
  | header (event : HeaderEvent)
  | tx (event : TxEvent)
deriving DecidableEq, Repr

end Logos.Mantle
