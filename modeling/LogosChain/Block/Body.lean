import LogosChain.Base.Bytes
import LogosChain.Base.HashTree
import LogosChain.Mantle.Types

/-!
# The body of a block (`core/src/block`, `core/src/utils/merkle.rs`)

A header commits to the uncles and the transactions of its block with one hash, the transactions
through a Merkle root filled up with zeros. Neither the number of leaves nor the place of a node is
hashed, so two bodies are kept apart only if no hash of a transaction is zero or the hash of a pair.
-/

namespace Logos.Body

open Base HashTree

/-- The bytes of a hash (`Hash`, `TxHash`, `ContentId`). -/
abbrev Hash32 := Vector UInt8 32

/-- `Hasher`: the digest of everything it was given. -/
class Hasher where
  digest : Bytes → Hash32

/-- `Hashable`: a transaction with its hash. -/
class Hashable (Tx : Type) where
  hash : Tx → Hash32

/-! ## Uncle headers -/

/-- The proof of leadership of a header. -/
structure Groth16LeaderProof where
  proof : Vector UInt8 128
  entropyContribution : Fin Mantle.frModulus
  leaderKey : Vector UInt8 32
  voucherCm : Fin Mantle.frModulus
deriving DecidableEq

/-- A header with its fields as bytes. -/
structure Header where
  slot : UInt64
  parentBlock : Hash32
  bodyRoot : Hash32
  proofOfLeadership : Groth16LeaderProof
deriving DecidableEq

/-- A header with the signature of its leader. -/
structure SignedHeader where
  header : Header
  signature : Vector UInt8 64
deriving DecidableEq

/-- The uncles of a block, as many as one byte can count. -/
structure UncleHeaders where
  headers : List SignedHeader
  length_le : headers.length ≤ 255

/-- A field element (`fr_to_bytes`). -/
def frToBytes (x : Fin Mantle.frModulus) : Bytes := leBytes 32 x

/-- The bytes of the fields in order. -/
def Groth16LeaderProof.encode (p : Groth16LeaderProof) : Bytes :=
  p.proof.toList ++ (frToBytes p.entropyContribution ++ (p.leaderKey.toList ++
    frToBytes p.voucherCm))

/-- The bytes of the fields in order. -/
def Header.encode (h : Header) : Bytes :=
  leBytes 8 h.slot.toNat ++ (h.parentBlock.toList ++ (h.bodyRoot.toList ++
    h.proofOfLeadership.encode))

def SignedHeader.encode (h : SignedHeader) : Bytes := h.header.encode ++ h.signature.toList

/-- The number of the headers in one byte, then the headers. -/
def UncleHeaders.encode (u : UncleHeaders) : Bytes :=
  leBytes 1 u.headers.length ++ u.headers.flatMap SignedHeader.encode

@[simp] theorem length_frToBytes (x : Fin Mantle.frModulus) : (frToBytes x).length = 32 :=
  length_leBytes 32 x

theorem frToBytes_inj {x y : Fin Mantle.frModulus} (h : frToBytes x = frToBytes y) : x = y := by
  have hfits : Mantle.frModulus ≤ 256 ^ 32 := by decide
  exact Fin.ext (leBytes_inj (x.isLt.trans_le hfits) (y.isLt.trans_le hfits) h)

@[simp] theorem Groth16LeaderProof.length_encode (p : Groth16LeaderProof) :
    p.encode.length = 224 := by
  simp [encode]

@[simp] theorem Header.length_encode (h : Header) : h.encode.length = 296 := by
  simp [encode]

@[simp] theorem SignedHeader.length_encode (h : SignedHeader) : h.encode.length = 360 := by
  simp [encode]

theorem Groth16LeaderProof.encode_inj {p q : Groth16LeaderProof} (h : p.encode = q.encode) :
    p = q := by
  obtain ⟨h1, h⟩ := List.append_inj h (by simp)
  obtain ⟨h2, h⟩ := List.append_inj h (by simp)
  obtain ⟨h3, h4⟩ := List.append_inj h (by simp)
  cases p
  cases q
  grind [frToBytes_inj, Vector.toList_inj]

theorem Header.encode_inj {a b : Header} (h : a.encode = b.encode) : a = b := by
  obtain ⟨h1, h⟩ := List.append_inj h (by simp)
  obtain ⟨h2, h⟩ := List.append_inj h (by simp)
  obtain ⟨h3, h4⟩ := List.append_inj h (by simp)
  have hslot : a.slot.toNat = b.slot.toNat :=
    leBytes_inj a.slot.toNat_lt b.slot.toNat_lt h1
  cases a
  cases b
  grind [Groth16LeaderProof.encode_inj, UInt64.toNat_inj, Vector.toList_inj]

theorem SignedHeader.encode_injective : Function.Injective SignedHeader.encode := by
  intro a b h
  obtain ⟨h1, h2⟩ := List.append_inj h (by simp)
  cases a
  cases b
  grind [Header.encode_inj, Vector.toList_inj]

/-- The headers of uncles are told apart by their encodings. -/
theorem UncleHeaders.encode_injective : Function.Injective UncleHeaders.encode := by
  intro u v h
  obtain ⟨h1, h2⟩ := List.append_inj h (by simp)
  have hlen : u.headers.length = v.headers.length := by
    have hu := u.length_le
    have hv := v.length_le
    exact leBytes_inj (by omega) (by omega) h1
  have hheaders := flatMap_inj_of_width SignedHeader.length_encode SignedHeader.encode_injective
    hlen h2
  cases u
  cases v
  simpa only [UncleHeaders.mk.injEq] using hheaders

/-! ## The root of the transactions -/

section

variable [Hasher]

/-- The string that a node of the tree is the digest of. -/
def nodeMessage (left right : Hash32) : Bytes := left.toList ++ right.toList

/-- The hash of two children. -/
def node (left right : Hash32) : Hash32 := Hasher.digest (nodeMessage left right)

/-- The nodes over the pairs of a level. Reading a chunk of one panics. -/
def levelUp : List Hash32 → Option (List Hash32)
  | [] => some []
  | [_] => none
  | left :: right :: rest => (levelUp rest).map (node left right :: ·)

/-- The loop over the levels, down to the one leaf it takes. -/
def reduce : Nat → List Hash32 → Option Hash32
  | 0, _ => none
  | fuel + 1, leaves =>
    if 1 < leaves.length then (levelUp leaves).bind (reduce fuel) else leaves[0]?

/-- `usize::next_power_of_two`. -/
def nextPowerOfTwo (n : Nat) : Nat := if n ≤ 1 then 1 else 2 ^ ((n - 1).log2 + 1)

/-- Cuts a list to a size or fills it up. -/
def resize {α : Type} (xs : List α) (size : Nat) (a : α) : List α :=
  xs.take size ++ List.replicate (size - xs.length) a

/-- What the leaves are filled up with. -/
def zeroLeaf : Hash32 := Vector.replicate 32 0

/-- The hashes of the transactions, filled up to a power of two. -/
def paddedLeaves (hashes : List Hash32) : List Hash32 :=
  resize hashes (nextPowerOfTwo (max hashes.length 1)) zeroLeaf

variable {Tx : Type} [Hashable Tx]

/-- The rounds of the loop are fewer than the leaves. -/
def calculateTransactionsRoot (transactions : List Tx) : Option Hash32 :=
  let leaves := paddedLeaves (transactions.map Hashable.hash)
  reduce leaves.length leaves

/-! ## The root of the body -/

/-- `b"BODY_ROOT_V1"`. -/
def bodyRootTag : Bytes := [66, 79, 68, 89, 95, 82, 79, 79, 84, 95, 86, 49]

/-- The string that the root of a body is the digest of. -/
def bodyMessage (uncleHeaders : UncleHeaders) (transactionsRoot : Hash32) : Bytes :=
  bodyRootTag ++ (uncleHeaders.encode ++ transactionsRoot.toList)

/-- The commitment to a body; `none` is a panic. -/
def bodyRoot (uncleHeaders : UncleHeaders) (transactions : List Tx) : Option Hash32 :=
  (calculateTransactionsRoot transactions).map fun root =>
    Hasher.digest (bodyMessage uncleHeaders root)

end

/-! ## What is hashed -/

section

variable [Hasher]

/-- The strings that are hashed for a level. -/
def levelMessages : List Hash32 → List Bytes
  | left :: right :: rest => nodeMessage left right :: levelMessages rest
  | _ => []

/-- The strings that are hashed up to the root. -/
def reduceMessages : Nat → List Hash32 → List Bytes
  | 0, _ => []
  | fuel + 1, leaves =>
    if 1 < leaves.length then
      levelMessages leaves ++ ((levelUp leaves).map (reduceMessages fuel)).getD []
    else []

variable {Tx : Type} [Hashable Tx]

/-- Every string that is hashed for the root of a body. -/
def bodyMessages (uncleHeaders : UncleHeaders) (transactions : List Tx) : List Bytes :=
  let leaves := paddedLeaves (transactions.map Hashable.hash)
  ((calculateTransactionsRoot transactions).map (bodyMessage uncleHeaders)).toList ++
    reduceMessages leaves.length leaves

end

/-! ## The loop computes a tree -/

section

variable [Hasher]

/-- A tree of hashes. -/
abbrev Tree := HashTree Hash32

/-- The root of the tree. -/
abbrev Tree.hash (t : Tree) : Hash32 := t.root nodeMessage Hasher.digest

/-- The messages of the inner nodes. -/
abbrev Tree.hashed (t : Tree) : List Bytes := t.messages nodeMessage Hasher.digest

/-- A round on the roots of an even number of trees gives the roots of the pairs. -/
theorem levelUp_forest {n : Nat} {ts : List Tree} (h : ts.length = 2 * n) :
    levelUp (ts.map Tree.hash) = some ((pairUp ts).map Tree.hash) := by
  induction ts using pairUp.induct generalizing n with
  | case1 left right rest ih =>
    simp only [List.length_cons] at h
    have hrest := @ih (n - 1) (by omega)
    simp [levelUp, pairUp, hrest, root, node]
  | case2 rest hrest =>
    rcases rest with _ | ⟨a, _ | ⟨b, rest⟩⟩
    · rfl
    · simp only [List.length_cons, List.length_nil] at h
      omega
    · exact absurd rfl (hrest a b rest)

/-- What is hashed for the pairs is new in the round or was hashed before. -/
theorem hashed_pairUp (ts : List Tree) : ∀ x ∈ (pairUp ts).flatMap Tree.hashed,
    x ∈ ts.flatMap Tree.hashed ∨ x ∈ levelMessages (ts.map Tree.hash) := by
  induction ts using pairUp.induct with
  | case1 left right rest ih =>
    grind [pairUp, messages, levelMessages]
  | case2 rest hrest =>
    grind [pairUp]

/-- From the roots of trees the loop makes the root of one tree over all their leaves. -/
theorem reduce_forest {k fuel : Nat} (hfuel : k < fuel) {ts : List Tree}
    (hlen : ts.length = 2 ^ k) :
    ∃ t : Tree, reduce fuel (ts.map Tree.hash) = some t.hash ∧
      t.leaves = ts.flatMap leaves ∧
      ∀ x ∈ t.hashed, x ∈ ts.flatMap Tree.hashed ∨ x ∈ reduceMessages fuel (ts.map Tree.hash) := by
  -- One round halves the number of the trees and keeps their leaves.
  induction k generalizing fuel ts with
  | zero =>
    obtain ⟨t, rfl⟩ := List.length_eq_one_iff.mp hlen
    obtain ⟨fuel, rfl⟩ := Nat.exists_eq_succ_of_ne_zero (Nat.ne_of_gt hfuel)
    exact ⟨t, rfl, by simp, fun x hx => .inl (by simpa using hx)⟩
  | succ k ih =>
    obtain ⟨fuel, rfl⟩ := Nat.exists_eq_succ_of_ne_zero (by omega : fuel ≠ 0)
    have hpairs : ts.length = 2 * 2 ^ k := by rw [hlen, Nat.pow_succ']
    have hmore : 1 < (ts.map Tree.hash).length := by grind
    have hround := levelUp_forest hpairs
    obtain ⟨t, hroot, hleaves, hhashed⟩ :=
      ih (Nat.lt_of_succ_lt_succ hfuel) (length_pairUp hpairs)
    refine ⟨t, ?_, ?_, ?_⟩
    · rw [reduce, if_pos hmore, hround]
      exact hroot
    · rw [hleaves, leaves_pairUp]
    · grind [reduceMessages, hashed_pairUp]

omit [Hasher] in
theorem nextPowerOfTwo_spec (n : Nat) : n ≤ nextPowerOfTwo n ∧ ∃ k, nextPowerOfTwo n = 2 ^ k := by
  unfold nextPowerOfTwo
  split
  · exact ⟨by omega, 0, rfl⟩
  · grind [Nat.lt_log2_self]

omit [Hasher] in
/-- The hashes come first, then only zeros, up to a power of two. -/
theorem paddedLeaves_eq (hashes : List Hash32) :
    ∃ m k, paddedLeaves hashes = hashes ++ List.replicate m zeroLeaf ∧
      (paddedLeaves hashes).length = 2 ^ k := by
  obtain ⟨hle, k, hk⟩ := nextPowerOfTwo_spec (max hashes.length 1)
  have hfits : hashes.length ≤ 2 ^ k := by omega
  refine ⟨2 ^ k - hashes.length, k, ?_, ?_⟩
  · rw [paddedLeaves, resize, hk, List.take_of_length_le hfits]
  · grind [paddedLeaves, resize]

variable {Tx : Type} [Hashable Tx]

/-- The root is that of a tree over the filled up leaves. -/
theorem calculateTransactionsRoot_tree (txs : List Tx) :
    ∃ t : Tree, calculateTransactionsRoot txs = some t.hash ∧
      t.leaves = paddedLeaves (txs.map Hashable.hash) ∧
      ∀ u : UncleHeaders, (∀ x ∈ t.hashed, x ∈ bodyMessages u txs) ∧
        bodyMessage u t.hash ∈ bodyMessages u txs := by
  obtain ⟨_, k, -, hlen⟩ := paddedLeaves_eq (txs.map Hashable.hash)
  have hforest : ((paddedLeaves (txs.map Hashable.hash)).map leaf).map Tree.hash =
      paddedLeaves (txs.map Hashable.hash) := by
    rw [List.map_map]
    exact List.map_id _
  have hcount : ((paddedLeaves (txs.map Hashable.hash)).map leaf).length = 2 ^ k := by
    rw [List.length_map, hlen]
  obtain ⟨t, hroot, hleaves, hhashed⟩ := reduce_forest (hlen ▸ Nat.lt_two_pow_self) hcount
  rw [hforest] at hroot hhashed
  refine ⟨t, hroot, ?_, fun u => ⟨fun x hx => ?_, ?_⟩⟩
  · rw [hleaves, List.flatMap_map]
    simp [leaves]
  · rcases hhashed x hx with hx | hx
    · simp [List.flatMap_map, messages] at hx
    · exact List.mem_append_right _ hx
  · apply List.mem_append_left
    grind [calculateTransactionsRoot]

end

/-! ## Binding -/

/-- Strings with the same hashes at the end have one beginning. -/
theorem bodyMessage_inj {u u' : UncleHeaders} {r r' : Hash32}
    (h : bodyMessage u r = bodyMessage u' r') : u = u' ∧ r = r' := by
  obtain ⟨-, h1⟩ := List.append_inj h rfl
  grind [List.append_inj', UncleHeaders.encode_injective, Vector.toList_inj]

theorem nodeMessage_inj (a b c d : Hash32) (h : nodeMessage a b = nodeMessage c d) :
    a = c ∧ b = d := by
  obtain ⟨h1, h2⟩ := List.append_inj h (by simp)
  exact ⟨Vector.toList_inj.mp h1, Vector.toList_inj.mp h2⟩

/-- The filled up leaves determine the hashes, none of which is zero. -/
theorem paddedLeaves_inj {hashes hashes' : List Hash32} (h1 : ∀ x ∈ hashes, x ≠ zeroLeaf)
    (h2 : ∀ x ∈ hashes', x ≠ zeroLeaf) (h : paddedLeaves hashes = paddedLeaves hashes') :
    hashes = hashes' := by
  have hkeep : ∀ l : List Hash32, (∀ x ∈ l, x ≠ zeroLeaf) →
      (paddedLeaves l).filter (· ≠ zeroLeaf) = l := by
    intro l hl
    obtain ⟨m, _, hpad, -⟩ := paddedLeaves_eq l
    grind [List.filter_eq_self]
  rw [← hkeep hashes h1, h, hkeep hashes' h2]

section

variable [Hasher] {Tx : Type} [Hashable Tx]

/-- No leaf has the hash of a node. -/
theorem leaf_ne_node {txs : List Tx} (hzero : ∀ s : Bytes, s.length = 64 → Hasher.digest s ≠ zeroLeaf)
    (hnode : ∀ tx ∈ txs, ∀ s : Bytes, s.length = 64 → Hasher.digest s ≠ Hashable.hash tx) :
    ∀ a ∈ paddedLeaves (txs.map Hashable.hash), ∀ b c, a ≠ Hasher.digest (nodeMessage b c) := by
  intro a ha b c
  have hlen : (nodeMessage b c).length = 64 := by simp [nodeMessage]
  obtain ⟨m, _, hpad, -⟩ := paddedLeaves_eq (txs.map Hashable.hash)
  grind

/-- The root of a body binds the headers of the uncles and the hashes of the transactions. -/
theorem bodyRoot_binds {u u' : UncleHeaders} {txs txs' : List Tx}
    (hfree : ∀ x ∈ bodyMessages u txs, ∀ y ∈ bodyMessages u' txs',
      Hasher.digest x = Hasher.digest y → x = y)
    (hzero : ∀ s : Bytes, s.length = 64 → Hasher.digest s ≠ zeroLeaf)
    (hnonzero : ∀ tx ∈ txs ++ txs', Hashable.hash tx ≠ zeroLeaf)
    (hnode : ∀ tx ∈ txs ++ txs', ∀ s : Bytes, s.length = 64 →
      Hasher.digest s ≠ Hashable.hash tx) (h : bodyRoot u txs = bodyRoot u' txs') :
    u = u' ∧ txs.map Hashable.hash = txs'.map Hashable.hash := by
  obtain ⟨t, hroot, hleaves, hmem⟩ := calculateTransactionsRoot_tree txs
  obtain ⟨t', hroot', hleaves', hmem'⟩ := calculateTransactionsRoot_tree txs'
  have hdigest : Hasher.digest (bodyMessage u t.hash) = Hasher.digest (bodyMessage u' t'.hash) := by
    simpa [bodyRoot, hroot, hroot'] using h
  obtain ⟨huncles, hroots⟩ := bodyMessage_inj (hfree _ (hmem u).2 _ (hmem' u').2 hdigest)
  have htree : t = t' := by
    apply eq_of_root_eq nodeMessage_inj _ _ _ hroots
    · grind [leaf_ne_node]
    · grind [leaf_ne_node]
    · grind
  grind [paddedLeaves_inj]

end

/-! A transaction is hashed without its proofs, so two bodies that differ in a proof have one root. -/

/-- A transaction that carries its hash, and proofs that are not hashed. -/
structure ProvedTx where
  txHash : Hash32
  proofs : Bytes

instance : Hashable ProvedTx := ⟨ProvedTx.txHash⟩

/-- Strings of different lengths have different digests. -/
@[reducible]
def Hasher.byLength : Hasher where
  digest s := Vector.ofFn fun i => if i = 0 then 1 else UInt8.ofNat s.length

theorem Hasher.byLength_first {s : Bytes} {h : Hash32} (hfirst : h[0] ≠ 1) :
    Hasher.byLength.digest s ≠ h := by grind

def zeroUncle : SignedHeader :=
  ⟨⟨0, zeroLeaf, zeroLeaf, ⟨Vector.replicate 128 0, ⟨0, by decide⟩, Vector.replicate 32 0,
    ⟨0, by decide⟩⟩⟩, Vector.replicate 64 0⟩

theorem bodyRoot_binds_twoTxs :
    let _ := Hasher.byLength
    let u : UncleHeaders := ⟨[zeroUncle], by decide⟩
    let txs : List ProvedTx := [⟨Vector.replicate 32 2, [7]⟩, ⟨Vector.replicate 32 3, []⟩]
    let txs' : List ProvedTx := [⟨Vector.replicate 32 2, [8]⟩, ⟨Vector.replicate 32 3, []⟩]
    bodyRoot u txs = bodyRoot u txs' ∧ txs.map Hashable.hash = txs'.map Hashable.hash := by
  intro _ u txs txs'
  have hsame : bodyRoot u txs = bodyRoot u txs' := rfl
  refine ⟨hsame, (bodyRoot_binds ?_ ?_ ?_ ?_ hsame).2⟩
  · decide +kernel
  · intro s _
    exact Hasher.byLength_first (by decide)
  · decide +kernel
  · intro tx htx s _
    apply Hasher.byLength_first
    revert tx
    decide +kernel

end Logos.Body
