import LogosChain.Base.Word
import LogosChain.Block.Body
import LogosChain.Mantle.Codec

/-!
# The encoding of blocks and proposals (`core/src/block`, `core/src/header`)

A block is read under the limits of its era on uncles, on transactions and on their bytes. A peer
reads at most `max_encoded_size` bytes. The hash of a header is not modelled, and lengths do not
overflow a word.
-/

namespace Logos.Body

open Base Mantle Mantle.Wire

/-! ## Headers -/

/-- An array of bytes that is read as the number of its bytes. -/
def asBytes (n : Nat) (c : Codec DecodeError Nat) : Codec DecodeError (Vector UInt8 n) :=
  c.imap (fun k => ⟨(leBytes n k).toArray, by simp⟩) fun v => leNat v.toList

theorem asBytes_canonical {n : Nat} {c : Codec DecodeError Nat} {valid : Nat → Prop}
    (hc : c.Canonical valid) (hlt : ∀ k, valid k → k < 256 ^ n) :
    (asBytes n c).Canonical fun v => valid (leNat v.toList) := by
  refine hc.imap (fun k hk => ?_) fun v hv => ⟨hv, ?_⟩
  · have hback : leNat (leBytes n k) = k := leNat_leBytes (hlt k hk)
    simpa [hback] using hk
  · have hbytes := leBytes_leNat v.toList
    rw [Vector.length_toList] at hbytes
    exact Vector.toList_inj.mp (by simpa using hbytes)

/-- A field element, which is below the modulus. -/
def frElement : Codec DecodeError (Fin frModulus) :=
  ((Codec.number (.unexpectedEnd "Fr") 32).attach (· < frModulus)
    (.invalidValue "Fr" "not a canonical field element")).imap
    (fun x => ⟨x.1, x.2⟩) fun x => ⟨x, x.isLt⟩

theorem frElement_canonical : frElement.Canonical fun _ => True :=
  ((Codec.Canonical.number _ 32).attach _ _).imap (fun _ _ => ⟨rfl, trivial⟩) fun x _ =>
    ⟨x.isLt.trans_le (by decide), rfl⟩

def signatureCodec : Codec DecodeError (Vector UInt8 64) := asBytes 64 ed25519Signature

theorem signatureCodec_canonical : signatureCodec.Canonical fun v => leNat v.toList < 256 ^ 64 :=
  asBytes_canonical (byteArray_canonical 64) fun _ h => h

theorem signature_fits (v : Vector UInt8 64) : leNat v.toList < 256 ^ 64 := by
  simpa only [Vector.length_toList] using leNat_lt v.toList

section

variable [Leaves]

/-- `VerifyingKey::from_bytes` takes the key of the leader. -/
def Groth16LeaderProof.KeyTaken (p : Groth16LeaderProof) : Prop :=
  IsUnverifiedKey (leNat p.leaderKey.toList)

/-- The fields of a proof of leadership in order. -/
def Groth16LeaderProof.codec : Codec DecodeError Groth16LeaderProof :=
  ((asBytes 128 groth16Proof).pair (frElement.pair ((asBytes 32 unverifiedKey).pair
    frElement))).imap
    (fun x => ⟨x.1, x.2.1, x.2.2.1, x.2.2.2⟩)
    fun p => (p.proof, p.entropyContribution, p.leaderKey, p.voucherCm)

theorem Groth16LeaderProof.codec_canonical : codec.Canonical KeyTaken := by
  refine ((asBytes_canonical (byteArray_canonical 128) fun _ h => h).pair
    (frElement_canonical.pair ((asBytes_canonical unverifiedKey_canonical fun _ h => h.1).pair
      frElement_canonical))).imap (fun _ hx => ⟨rfl, hx.2.2.1⟩) fun p hp => ⟨?_, rfl⟩
  have hproof := leNat_lt p.proof.toList
  rw [Vector.length_toList] at hproof
  exact ⟨hproof, trivial, hp, trivial⟩

/-- The fields of a header in order. -/
def Header.codec : Codec DecodeError Header :=
  ((u64.imap UInt64.ofNat UInt64.toNat).pair ((asBytes 32 hash).pair ((asBytes 32 hash).pair
    Groth16LeaderProof.codec))).imap
    (fun x => ⟨x.1, x.2.1, x.2.2.1, x.2.2.2⟩)
    fun h => (h.slot, h.parentBlock, h.bodyRoot, h.proofOfLeadership)

theorem Header.codec_canonical : codec.Canonical fun h => h.proofOfLeadership.KeyTaken := by
  have hslot : (u64.imap UInt64.ofNat UInt64.toNat).Canonical fun _ => True :=
    u64_canonical.imap (fun n hn => ⟨UInt64.toNat_ofNat_of_lt' hn, trivial⟩)
      fun s _ => ⟨s.toNat_lt, UInt64.ofNat_toNat⟩
  have hhash : (asBytes 32 hash).Canonical fun v => leNat v.toList < 256 ^ 32 :=
    asBytes_canonical (byteArray_canonical 32) fun _ h => h
  have hbytes (v : Hash32) : leNat v.toList < 256 ^ 32 := by
    simpa only [Vector.length_toList] using leNat_lt v.toList
  exact (hslot.pair (hhash.pair (hhash.pair Groth16LeaderProof.codec_canonical))).imap
    (fun _ hx => ⟨rfl, hx.2.2.2⟩) fun h hh => ⟨⟨trivial, hbytes _, hbytes _, hh⟩, rfl⟩

/-- A header and its signature. -/
def SignedHeader.codec : Codec DecodeError SignedHeader :=
  (Header.codec.pair signatureCodec).imap (fun x => ⟨x.1, x.2⟩) fun h => (h.header, h.signature)

theorem SignedHeader.codec_canonical :
    codec.Canonical fun h => h.header.proofOfLeadership.KeyTaken :=
  (Header.codec_canonical.pair signatureCodec_canonical).imap (fun _ hx => ⟨rfl, hx.1⟩)
    fun h hh => ⟨⟨hh, signature_fits h.signature⟩, rfl⟩

end

/-! ## Limits -/

/-- `BlockLimits`: what the era of a block allows. -/
structure BlockLimits where
  maxUncles : UInt8
  maxTransactions : UInt16
  maxTransactionsSize : UInt32
deriving DecidableEq

/-- `Header::CANONICAL_ENCODED_SIZE`: slot, parent, body and proof. -/
def Header.canonicalEncodedSize : Nat := 8 + 32 + 32 + (128 + 32 + 32 + 32)

def SignedHeader.canonicalEncodedSize : Nat := Header.canonicalEncodedSize + 64

/-- `TxHashPrefix::CANONICAL_ENCODED_SIZE`. -/
def referencePrefixBytes : Nat := 16

/-- A count and the largest number of headers. -/
def UncleHeaders.maxEncodedSize (maxUncles : UInt8) : Nat :=
  1 + maxUncles.toNat * SignedHeader.canonicalEncodedSize

/-- A count and the largest number of references. -/
def References.maxEncodedSize (maxTransactions : UInt16) : Nat :=
  2 + maxTransactions.toNat * referencePrefixBytes

/-! ## Collections under a maximum of the era -/

/-- `UpperRuntimeBoundedVec<T, Max>`: the count is a number of type `Max`. -/
def runtimeBoundedVec {α : Type} (typeName itemName : String) (count : Codec DecodeError Nat)
    (max : Nat) (c : Codec DecodeError α) : Codec DecodeError (List α) :=
  .counted count 0 max (.lengthOutOfBounds typeName · 0 max) c.encode c.encodedLength
    (vecItem itemName max c)

variable {α : Type} {c : Codec DecodeError α}

theorem runtimeBoundedVec_canonical {typeName itemName : String} {count : Codec DecodeError Nat}
    {max bound : Nat} {valid : α → Prop} (hcount : count.Canonical (· < bound)) (hmax : max < bound)
    (hc : c.Canonical valid) (hpos : ∀ x, 0 < c.encodedLength x) :
    (runtimeBoundedVec typeName itemName count max c).Canonical fun xs =>
      xs.length ≤ max ∧ ∀ x ∈ xs, valid x := by
  have hbytes : ∀ x, valid x → c.encode x ≠ [] := fun x hx hnil => by
    have hlength := hc.length hx
    rw [hnil] at hlength
    exact (hpos x).ne' hlength
  refine (Codec.Canonical.counted hcount hmax (vecItem_canonical hc (.inl hbytes))
    fun _ x hx => hc.length hx).congr fun xs => ?_
  rw [Codec.extends_of_forall]
  simp

/-- Items of one size: the length is linear in their number. -/
theorem length_items_le {max size : Nat} (hc : ∀ x, c.encodedLength x = size) {xs : List α}
    (hxs : xs.length ≤ max) (width : Nat) :
    width + (xs.map c.encodedLength).sum ≤ width + max * size := by
  have hsum : (xs.map c.encodedLength).sum = xs.length * size := by
    rw [funext hc, List.map_const', List.sum_replicate_nat]
  rw [hsum]
  exact Nat.add_le_add_left (Nat.mul_le_mul_right size hxs) width

/-! ## Uncles -/

section

variable [Leaves]

/-- The uncles are as many as a byte counts. -/
def UncleHeaders.codec (maxUncles : UInt8) : Codec DecodeError UncleHeaders :=
  ((runtimeBoundedVec "UpperRuntimeBoundedVec<SignedHeader, u8>" "SignedHeader" u8 maxUncles.toNat
    SignedHeader.codec).attach (·.length ≤ 255)
    (.lengthOutOfBounds "UpperRuntimeBoundedVec<SignedHeader, u8>" 256 0 maxUncles.toNat)).imap
    (fun x => ⟨x.1, x.2⟩) fun u => ⟨u.headers, u.length_le⟩

theorem SignedHeader.encodedLength_eq (h : SignedHeader) :
    codec.encodedLength h = canonicalEncodedSize := by
  change 8 + (32 + (32 + (128 + (32 + (32 + 32))))) + 64 = canonicalEncodedSize
  decide

theorem SignedHeader.encodedLength_pos (h : SignedHeader) : 0 < codec.encodedLength h := by
  rw [h.encodedLength_eq]
  decide

theorem UncleHeaders.codec_canonical (maxUncles : UInt8) :
    (codec maxUncles).Canonical fun u => u.headers.length ≤ maxUncles.toNat ∧
      ∀ h ∈ u.headers, h.header.proofOfLeadership.KeyTaken :=
  ((runtimeBoundedVec_canonical u8_canonical maxUncles.toNat_lt SignedHeader.codec_canonical
    SignedHeader.encodedLength_pos).attach _ _).imap (fun _ hx => ⟨rfl, hx⟩) fun _ hu => ⟨hu, rfl⟩

theorem UncleHeaders.encodedLength_le {maxUncles : UInt8} {u : UncleHeaders}
    (hu : u.headers.length ≤ maxUncles.toNat) :
    (codec maxUncles).encodedLength u ≤ maxEncodedSize maxUncles :=
  length_items_le SignedHeader.encodedLength_eq hu 1

/-! ## Proposals -/

/-- A block with references in place of its transactions. -/
structure Proposal where
  header : Header
  uncleHeaders : UncleHeaders
  /-- `References`: the first bytes of the hashes of the transactions. -/
  references : List (Vector UInt8 referencePrefixBytes)
  signature : Vector UInt8 64

namespace Proposal

def references.codec (maxTransactions : UInt16) :
    Codec DecodeError (List (Vector UInt8 referencePrefixBytes)) :=
  runtimeBoundedVec "UpperRuntimeBoundedVec<TxHashPrefix, u16>" "TxHashPrefix" u16
    maxTransactions.toNat (asBytes referencePrefixBytes (byteArray referencePrefixBytes))

/-- The parts of a proposal in order. -/
def codec (limits : BlockLimits) : Codec DecodeError Proposal :=
  (Header.codec.pair ((UncleHeaders.codec limits.maxUncles).pair
    ((references.codec limits.maxTransactions).pair signatureCodec))).imap
    (fun x => ⟨x.1, x.2.1, x.2.2.1, x.2.2.2⟩)
    fun p => (p.header, p.uncleHeaders, p.references, p.signature)

/-- `Proposal::max_encoded_size`. -/
def maxEncodedSize (limits : BlockLimits) : Nat :=
  Header.canonicalEncodedSize + UncleHeaders.maxEncodedSize limits.maxUncles +
    References.maxEncodedSize limits.maxTransactions + 64

/-- What a proposal that is read under limits keeps. -/
structure Within (limits : BlockLimits) (p : Proposal) : Prop where
  key : p.header.proofOfLeadership.KeyTaken
  uncles : p.uncleHeaders.headers.length ≤ limits.maxUncles.toNat ∧
    ∀ h ∈ p.uncleHeaders.headers, h.header.proofOfLeadership.KeyTaken
  references : p.references.length ≤ limits.maxTransactions.toNat

theorem codec_canonical (limits : BlockLimits) : (codec limits).Canonical (Within limits) := by
  have hreference : (asBytes referencePrefixBytes (byteArray referencePrefixBytes)).Canonical
      fun v => leNat v.toList < 256 ^ referencePrefixBytes :=
    asBytes_canonical (byteArray_canonical _) fun _ h => h
  have hreferences : (references.codec limits.maxTransactions).Canonical _ :=
    runtimeBoundedVec_canonical u16_canonical limits.maxTransactions.toNat_lt hreference
      fun _ => (by decide : 0 < referencePrefixBytes)
  refine (Header.codec_canonical.pair ((UncleHeaders.codec_canonical _).pair
    (hreferences.pair signatureCodec_canonical))).imap
    (fun x hx => ⟨rfl, ⟨hx.1, hx.2.1, hx.2.2.1.1⟩⟩) fun p hp => ⟨?_, rfl⟩
  refine ⟨hp.key, hp.uncles, ⟨hp.references, fun v _ => ?_⟩, signature_fits p.signature⟩
  simpa only [Vector.length_toList] using leNat_lt v.toList

theorem encodedLength_le {limits : BlockLimits} {p : Proposal} (hp : p.Within limits) :
    (codec limits).encodedLength p ≤ maxEncodedSize limits := by
  have huncles := UncleHeaders.encodedLength_le hp.uncles.1
  have hreferences : (references.codec limits.maxTransactions).encodedLength p.references ≤
      References.maxEncodedSize limits.maxTransactions :=
    length_items_le (fun _ => rfl) hp.references 2
  change Header.canonicalEncodedSize + ((UncleHeaders.codec _).encodedLength p.uncleHeaders +
    ((references.codec _).encodedLength p.references + 64)) ≤ _
  unfold maxEncodedSize
  omega

end Proposal

end

/-! ## Blocks -/

/-- `StorageSize`: the bytes that a block is charged for. -/
class StorageSize (Tx : Type) where
  storageSize : Tx → Nat

/-- How headers are signed. -/
class HeaderSignatures where
  /-- `SerializeOp::to_bytes` of a header. -/
  toBytes : Header → Except String Bytes
  /-- `verify` of the key of a leader. -/
  verify : Vector UInt8 32 → Bytes → Vector UInt8 64 → Bool

/-- A block with its transactions. -/
structure Block (Tx : Type) where
  header : Header
  signature : Vector UInt8 64
  uncleHeaders : UncleHeaders
  transactions : List Tx

namespace Block

/-- The errors of a block that is put together from its parts. -/
inductive Error where
  | serialisation (message : String)
  | signature
  | genesisSlot
  | bodyRootMismatch
  | contentTooBig (size max : Nat)
deriving DecidableEq

/-- The text of an error. -/
def Error.message : Error → String
  | .serialisation message => "Failed to serialize: " ++ message
  | .signature => "Invalid block signature"
  | .genesisSlot => "Failed to verify header alone: Expected a non-genesis slot"
  | .bodyRootMismatch => "Body root mismatch: calculated body does not match header"
  | .contentTooBig size max =>
    "Total storage size " ++ toString size ++ " exceeds maximum of " ++ toString max ++ " bytes"

variable {Tx : Type} [StorageSize Tx]

/-- The loop of `validate_total_transactions_size`, from a total. -/
def totalTransactionsSize (max : Nat) (total : Nat) : List Tx → Except Error Nat
  | [] => .ok total
  | tx :: txs => do
    let total ← okOr (checkedAdd 64 total (StorageSize.storageSize tx))
      (.contentTooBig (2 ^ 64 - 1) max)
    failIf (max < total) (.contentTooBig total max)
    totalTransactionsSize max total txs

/-- The total size, if it is within the maximum. -/
def validateTotalTransactionsSize (block : Block Tx) (maxTransactionsSize : UInt32) :
    Except Error Nat :=
  totalTransactionsSize maxTransactionsSize.toNat 0 block.transactions

/-- The loop adds up the sizes and stays under the maximum. -/
theorem totalTransactionsSize_ok {max total t : Nat} {txs : List Tx}
    (h : totalTransactionsSize max total txs = .ok t) (htotal : total ≤ max) :
    t = total + (txs.map StorageSize.storageSize).sum ∧ t ≤ max := by
  induction txs generalizing total with
  | nil =>
    cases h
    exact ⟨rfl, htotal⟩
  | cons tx txs ih =>
    obtain ⟨next, h1, h⟩ := bind_ok h
    obtain ⟨_, h2, h⟩ := bind_ok h
    rw [okOr_ok, checkedAdd_eq_some] at h1
    obtain ⟨rfl, hle⟩ := ih h (Nat.le_of_not_lt (failIf_ok.mp h2))
    refine ⟨?_, hle⟩
    rw [List.map_cons, List.sum_cons, ← h1.1, Nat.add_assoc]

variable [Hasher] [HeaderSignatures] [Hashable Tx] {block : Block Tx}

/-- `verify_header_signature`. -/
def verifyHeaderSignature (header : Header) (signature : Vector UInt8 64) : Except Error Unit := do
  let bytes ← (HeaderSignatures.toBytes header).mapError .serialisation
  failIf (HeaderSignatures.verify header.proofOfLeadership.leaderKey bytes signature = false)
    .signature

/-- `into_verified`. The root of a body is always found. -/
def intoVerified (block : Block Tx) (maxTransactionsSize : UInt32) : Except Error (Block Tx) := do
  failIf (block.header.slot = 0) .genesisSlot
  let _ ← block.validateTotalTransactionsSize maxTransactionsSize
  failIf (bodyRoot block.uncleHeaders block.transactions ≠ some block.header.bodyRoot)
    .bodyRootMismatch
  verifyHeaderSignature block.header block.signature
  return block

/-- A block from its parts. -/
def reconstruct (header : Header) (uncleHeaders : UncleHeaders) (transactions : List Tx)
    (signature : Vector UInt8 64) (maxTransactionsSize : UInt32) : Except Error (Block Tx) :=
  intoVerified ⟨header, signature, uncleHeaders, transactions⟩ maxTransactionsSize

/-- A block that passes is the checked one, and not too big. -/
theorem intoVerified_ok {block' : Block Tx} {maxTransactionsSize : UInt32}
    (h : block.intoVerified maxTransactionsSize = .ok block') :
    block' = block ∧
      (block.transactions.map StorageSize.storageSize).sum ≤ maxTransactionsSize.toNat := by
  obtain ⟨_, -, h⟩ := bind_ok h
  obtain ⟨t, hsize, h⟩ := bind_ok h
  obtain ⟨_, -, h⟩ := bind_ok h
  obtain ⟨_, -, h⟩ := bind_ok h
  cases h
  obtain ⟨ht, hle⟩ := totalTransactionsSize_ok hsize (Nat.zero_le _)
  rw [Nat.zero_add] at ht
  exact ⟨rfl, ht ▸ hle⟩

variable [Leaves] {tx : Codec DecodeError Tx} {validTx : Tx → Prop}

/-- The parts of a block in order. -/
def codec (limits : BlockLimits) (tx : Codec DecodeError Tx) : Codec DecodeError (Block Tx) :=
  (Header.codec.pair ((UncleHeaders.codec limits.maxUncles).pair
    ((runtimeBoundedVec "UpperRuntimeBoundedVec<SignedOps, u16>" "SignedOps" u16
      limits.maxTransactions.toNat tx).pair signatureCodec))).tryMap
    (fun x => (reconstruct x.1 x.2.1 x.2.2.1 x.2.2.2 limits.maxTransactionsSize).mapError
      fun e => .invalidValue "Block<SignedOps>" e.message)
    fun block => (block.header, block.uncleHeaders, block.transactions, block.signature)

/-- `Block::max_encoded_size`. -/
def maxEncodedSize (limits : BlockLimits) : Nat :=
  Header.canonicalEncodedSize + UncleHeaders.maxEncodedSize limits.maxUncles + 2 +
    limits.maxTransactionsSize.toNat + 64

/-- What a block that is read under limits keeps. -/
structure Within (limits : BlockLimits) (validTx : Tx → Prop) (block : Block Tx) : Prop where
  key : block.header.proofOfLeadership.KeyTaken
  uncles : block.uncleHeaders.headers.length ≤ limits.maxUncles.toNat ∧
    ∀ h ∈ block.uncleHeaders.headers, h.header.proofOfLeadership.KeyTaken
  transactions : block.transactions.length ≤ limits.maxTransactions.toNat ∧
    ∀ tx ∈ block.transactions, validTx tx
  verified : block.intoVerified limits.maxTransactionsSize = .ok block

theorem codec_canonical (limits : BlockLimits) (htx : tx.Canonical validTx)
    (hpos : ∀ x, 0 < tx.encodedLength x) : (codec limits tx).Canonical (Within limits validTx) := by
  refine (Header.codec_canonical.pair ((UncleHeaders.codec_canonical _).pair
    ((runtimeBoundedVec_canonical u16_canonical limits.maxTransactions.toNat_lt htx hpos).pair
      signatureCodec_canonical))).tryMap (fun x block hx h => ?_) fun block hblock => ?_
  · rw [mapError_ok] at h
    obtain ⟨rfl, -⟩ := intoVerified_ok h
    exact ⟨rfl, ⟨hx.1, hx.2.1, hx.2.2.1, h⟩⟩
  · refine ⟨⟨hblock.key, hblock.uncles, hblock.transactions, signature_fits _⟩, ?_⟩
    exact mapError_ok.mpr hblock.verified

theorem encodedLength_le {limits : BlockLimits}
    (hsize : ∀ x, StorageSize.storageSize x = tx.encodedLength x)
    (hblock : block.Within limits validTx) :
    (codec limits tx).encodedLength block ≤ maxEncodedSize limits := by
  have huncles := UncleHeaders.encodedLength_le hblock.uncles.1
  have htransactions := (intoVerified_ok hblock.verified).2
  rw [funext hsize] at htransactions
  change Header.canonicalEncodedSize + ((UncleHeaders.codec _).encodedLength block.uncleHeaders +
    (2 + (block.transactions.map tx.encodedLength).sum + 64)) ≤ _
  unfold maxEncodedSize
  omega

end Block

/-! ## Signed transactions -/

section

variable [Primitives] [Leaves]

/-- `storage_size` of a signed transaction is the length of its encoding. -/
instance : StorageSize SignedOps := ⟨SignedOps.encodedLength⟩

theorem signedOps_encodedLength_pos (max : Nat) (tx : SignedOps) :
    0 < (SignedOps.codec max).encodedLength tx := by
  have hdigest : hash.encodedLength tx.forkDigest = 32 := rfl
  change 0 < hash.encodedLength tx.forkDigest + _ + _
  omega

variable [Hasher] [HeaderSignatures] [Hashable SignedOps]

/-- What is read under the limits of an era takes at most `max_encoded_size` bytes. -/
theorem size_limits_cover (limits : BlockLimits) (maxOpDataSize : UInt32) (b rest : Bytes) :
    (∀ p, (Proposal.codec limits).decode b = .ok (rest, p) →
      (Proposal.codec limits).encodedLength p ≤ Proposal.maxEncodedSize limits ∧
        b.length = (Proposal.codec limits).encodedLength p + rest.length) ∧
    ∀ block : Block SignedOps,
      (Block.codec limits (SignedOps.codec maxOpDataSize.toNat)).decode b = .ok (rest, block) →
        (Block.codec limits (SignedOps.codec maxOpDataSize.toNat)).encodedLength block ≤
            Block.maxEncodedSize limits ∧
          b.length = (Block.codec limits (SignedOps.codec maxOpDataSize.toNat)).encodedLength block +
            rest.length := by
  have hmax : maxOpDataSize.toNat ≤ maxOpData := Nat.le_sub_one_of_lt maxOpDataSize.toNat_lt
  have hcanonical := Block.codec_canonical limits (SignedOps.codec_canonical hmax)
    (signedOps_encodedLength_pos _)
  constructor
  · intro p h
    obtain ⟨hp, hbytes⟩ := (Proposal.codec_canonical limits).sound h
    refine ⟨Proposal.encodedLength_le hp, ?_⟩
    rw [(Proposal.codec_canonical limits).length hp, ← hbytes, List.length_append]
  · intro block h
    obtain ⟨hblock, hbytes⟩ := hcanonical.sound h
    refine ⟨Block.encodedLength_le (fun _ => rfl) hblock, ?_⟩
    rw [hcanonical.length hblock, ← hbytes, List.length_append]

/-- Proposals and blocks within the limits of an era have one encoding each, which is read back
whatever follows it. -/
theorem wire_format_canonical (limits : BlockLimits) (maxOpDataSize : UInt32) :
    (Proposal.codec limits).Canonical (Proposal.Within limits) ∧
      (Block.codec limits (SignedOps.codec maxOpDataSize.toNat)).Canonical
        (Block.Within limits fun tx => tx.Typed ∧ tx.WithinDataSize maxOpDataSize.toNat) := by
  have hmax : maxOpDataSize.toNat ≤ maxOpData := Nat.le_sub_one_of_lt maxOpDataSize.toNat_lt
  exact ⟨Proposal.codec_canonical limits,
    Block.codec_canonical limits (SignedOps.codec_canonical hmax) (signedOps_encodedLength_pos _)⟩

end

/-- For running it by hand: every signature is good. -/
@[reducible]
def HeaderSignatures.plain : HeaderSignatures := ⟨fun h => .ok h.encode, fun _ _ _ => true⟩

/-- A block with an uncle and one empty transaction. -/
def smallBlock : Block SignedOps :=
  letI := Hasher.byLength
  let uncles : UncleHeaders := ⟨[zeroUncle], by decide⟩
  ⟨{ zeroUncle.header with
      slot := 1
      bodyRoot := Hasher.digest (bodyMessage uncles (Vector.replicate 32 2)) },
    zeroUncle.signature, uncles, [⟨7, []⟩]⟩

theorem size_limits_cover_smallBlock :
    letI := Primitives.plain
    letI := Leaves.plain
    letI := Hasher.byLength
    letI := HeaderSignatures.plain
    letI : Hashable SignedOps := ⟨fun _ => Vector.replicate 32 2⟩
    let codec := Block.codec ⟨1, 1, 33⟩ (SignedOps.codec 0)
    codec.decode (codec.encode smallBlock ++ [5]) = .ok ([5], smallBlock) ∧
      codec.encodedLength smallBlock ≤ 756 := by
  let := Primitives.plain
  let := Leaves.plain
  let := Hasher.byLength
  let := HeaderSignatures.plain
  let : Hashable SignedOps := ⟨fun _ => Vector.replicate 32 2⟩
  intro codec
  have hkey (p : Groth16LeaderProof) : p.KeyTaken :=
    ⟨by simpa only [Vector.length_toList] using leNat_lt p.leaderKey.toList, rfl⟩
  have htx : SignedOps.Typed ⟨7, []⟩ ∧ SignedOps.WithinDataSize 0 ⟨7, []⟩ :=
    ⟨⟨by decide, by decide, nofun, nofun⟩, nofun⟩
  have hblock : smallBlock.Within ⟨1, 1, 33⟩ fun tx => tx.Typed ∧ tx.WithinDataSize 0 := by
    refine ⟨hkey _, ⟨by decide, fun _ _ => hkey _⟩, ⟨by decide, ?_⟩, ?_⟩
    · exact List.forall_mem_singleton.mpr htx
    · refine ok_bind (a := ()) (failIf_ok.mpr (by decide)) (ok_bind (a := 33) (by decide) ?_)
      exact ok_bind (a := ()) (failIf_ok.mpr fun h => h rfl) rfl
  have hdecode := (Block.codec_canonical ⟨1, 1, 33⟩ (SignedOps.codec_canonical (by decide))
    (signedOps_encodedLength_pos 0)).complete [5] hblock
  exact ⟨hdecode, ((size_limits_cover ⟨1, 1, 33⟩ 0 _ _).2 _ hdecode).1⟩

end Logos.Body
