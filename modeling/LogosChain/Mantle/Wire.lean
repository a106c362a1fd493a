import LogosChain.Base.Codec
import LogosChain.Mantle.Primitives

/-!
# The canonical encoding (`binary-codec/src/canonical`)

Fixed-width integers are little-endian, an array is its items, a collection is a count of the width
that its maximum needs and its items. A third-party value is the number of its bytes, so that it is
read from the bytes that it is written as.
-/

namespace Logos.Mantle

open Base

/-- A failure while decoding a value (`DecodeError`). -/
inductive DecodeError where
  | unexpectedEnd (typeName : String) (needed : Nat)
  | invalidValue (typeName message : String)
  | unknownDiscriminant (typeName : String) (discriminant : Nat)
  | lengthOutOfBounds (typeName : String) (len min max : Nat)
  | zeroLengthElement (typeName : String) (max limit : Nat)
  | duplicateItem (typeName : String) (index : Nat)
  | outOfOrderItem (typeName : String) (index : Nat)
  | custom (message : String)
deriving DecidableEq

/-- The message of a failed conversion (`#[decode(try_from = ..)]`). -/
def conversionFailed : String := "its conversion from the decoded value failed"

/-- A protocol of a network address, as a locator is checked. -/
inductive Protocol where
  | ip4 (address : Nat)
  | ip6 (address : Nat)
  | tcp (port : Nat)
  | udp (port : Nat)
  | p2p
  | other
deriving DecidableEq

/-- What the libraries of the leaves accept. -/
class Leaves where
  /-- `VerifyingKey::from_bytes` takes the bytes. -/
  verifyingKey : Ed25519PublicKey → Bool
  /-- The protocols of a `Multiaddr`; none if the bytes are not one. -/
  protocols : Locator → Option (List Protocol)

namespace Wire

/-! ## Integers and arrays -/

def u8 : Codec DecodeError Nat := .number (.unexpectedEnd "u8") 1
def u16 : Codec DecodeError Nat := .number (.unexpectedEnd "u16") 2
def u32 : Codec DecodeError Nat := .number (.unexpectedEnd "u32") 4
def u64 : Codec DecodeError Nat := .number (.unexpectedEnd "u64") 8

/-- `NonZero<u16>`. -/
def nonZeroU16 : Codec DecodeError Nat := u16.guard (0 < ·) (.invalidValue "NonZero<u16>" "zero")

/-- `[u8; n]`, as a number. The bytes are read one by one. -/
def byteArray (n : Nat) : Codec DecodeError Nat := .number (fun _ => .unexpectedEnd "u8" 1) n

def hash : Codec DecodeError Nat := byteArray 32

/-! ## Collections -/

/-- The most items that may take no bytes. -/
def zeroLengthElementMax : Nat := 1024

/-- The count of a collection, as wide as its maximum needs. -/
def lengthPrefix (max : Nat) : Codec DecodeError Nat :=
  if max ≤ 255 then u8 else if max ≤ 65535 then u16 else u32

variable {α β κ : Type}

/-- Reads an item of a vector. -/
def vecItem (itemName : String) (max : Nat) (c : Codec DecodeError α) (_ : List α) (b : Bytes) :
    Except DecodeError (Bytes × α) := do
  let (next, item) ← c.decode b
  failIf (next.length = b.length ∧ zeroLengthElementMax < max)
    (.zeroLengthElement itemName max zeroLengthElementMax)
  return (next, item)

/-- `BoundedVec<T, MIN, MAX>`. -/
def boundedVec (typeName itemName : String) (min max : Nat) (c : Codec DecodeError α) :
    Codec DecodeError (List α) :=
  .counted (lengthPrefix max) min max (.lengthOutOfBounds typeName · min max) c.encode
    c.encodedLength (vecItem itemName max c)

/-- `UpperRuntimeBoundedVec<u8, u32>`: the count is a `u32`. -/
def runtimeBoundedBytes (typeName : String) (max : Nat) : Codec DecodeError (List Nat) :=
  .counted u32 0 max (.lengthOutOfBounds typeName · 0 max) u8.encode u8.encodedLength
    (vecItem "u8" max u8)

/-- Reads an item of a set. -/
def setItem [DecidableEq α] (typeName : String) (c : Codec DecodeError α) (items : List α)
    (b : Bytes) : Except DecodeError (Bytes × α) := do
  let (next, item) ← c.decode b
  failIf (item ∈ items) (.duplicateItem typeName items.length)
  return (next, item)

/-- `BoundedOrderedSet<T, MIN, MAX>`. -/
def orderedSet [DecidableEq α] (typeName : String) (min max : Nat) (c : Codec DecodeError α) :
    Codec DecodeError (List α) :=
  .counted (lengthPrefix max) min max (.lengthOutOfBounds typeName · min max) c.encode
    c.encodedLength (setItem typeName c)

/-- The keys of a map increase. -/
def checkKeyOrder [LinearOrder κ] (typeName : String) (last : Option κ) (key : κ) (index : Nat) :
    Except DecodeError Unit :=
  match last with
  | none => .ok ()
  | some last =>
    if last < key then .ok ()
    else if key = last then .error (.duplicateItem typeName index)
    else .error (.outOfOrderItem typeName index)

/-- Reads an entry: its key is checked before its value is read. -/
def mapEntry [LinearOrder κ] (typeName : String) (k : Codec DecodeError κ) (c : Codec DecodeError β)
    (items : List (κ × β)) (b : Bytes) : Except DecodeError (Bytes × (κ × β)) := do
  let (b, key) ← k.decode b
  checkKeyOrder typeName (items.getLast?.map (·.1)) key items.length
  let (b, value) ← c.decode b
  return (b, (key, value))

/-- `BoundedBTreeMap<K, V, MIN, MAX>`. -/
def bTreeMap [LinearOrder κ] (typeName : String) (min max : Nat) (k : Codec DecodeError κ)
    (c : Codec DecodeError β) : Codec DecodeError (List (κ × β)) :=
  .counted (lengthPrefix max) min max (.lengthOutOfBounds typeName · min max) (k.pair c).encode
    (k.pair c).encodedLength (mapEntry typeName k c)

/-! ## Leaves -/

/-- A field element. -/
def fr : Codec DecodeError Fr :=
  (Codec.number (.unexpectedEnd "Fr") 32).guard (· < frModulus)
    (.invalidValue "Fr" "not a canonical field element")

section Keys

variable [Leaves]

/-- `UnverifiedEd25519PublicKey`. -/
def unverifiedKey : Codec DecodeError Ed25519PublicKey :=
  (byteArray 32).guard (Leaves.verifyingKey · = true)
    (.invalidValue "UnverifiedPublicKey" conversionFailed)

/-- `Ed25519PublicKey`: a key of small order is refused. -/
def publicKey [Primitives] : Codec DecodeError Ed25519PublicKey :=
  unverifiedKey.guard (Primitives.isWeak · = false) (.invalidValue "PublicKey" conversionFailed)

def maxLocatorByteSize : Nat := 329

/-- A locator has no unspecified address, no port 0 and no peer id. -/
def allowed : Protocol → Bool
  | .ip4 address => address ≠ 0
  | .ip6 address => address ≠ 0
  | .tcp port => port ≠ 0
  | .udp port => port ≠ 0
  | .p2p => false
  | .other => true

/-- `Locator::try_from` takes the bytes. -/
def IsLocator (bytes : Locator) : Prop :=
  bytes.length ≤ maxLocatorByteSize ∧ (Leaves.protocols bytes).any (·.all allowed) = true

instance (bytes : Locator) : Decidable (IsLocator bytes) := inferInstanceAs (Decidable (_ ∧ _))

/-- An address of bounded size. -/
def locator : Codec DecodeError Locator :=
  (boundedVec "BoundedMultiaddrBytes" "u8" 0 maxLocatorByteSize u8).guard IsLocator
    (.invalidValue "Locator" conversionFailed)

end Keys

def ed25519SignatureSize : Nat := 64

def compressedProofSize : Nat := 128

def ed25519Signature : Codec DecodeError Ed25519Signature := byteArray ed25519SignatureSize

/-- A compressed Groth16 proof. -/
def groth16Proof : Codec DecodeError Nat := byteArray compressedProofSize

/-- `ProofOfQuota`: the key nullifier and a Groth16 proof. -/
def proofOfQuota : Codec DecodeError Nat :=
  (byteArray (32 + compressedProofSize)).guard (· % 256 ^ 32 < frModulus)
    (.invalidValue "ProofOfQuota" conversionFailed)

/-- `ProofOfSelection`: a field element. -/
def proofOfSelection : Codec DecodeError Nat :=
  (byteArray 32).guard (· < frModulus) (.invalidValue "ProofOfSelection" conversionFailed)

/-! ## The codecs are canonical -/

theorem byteArray_canonical (n : Nat) : (byteArray n).Canonical (· < 256 ^ n) := .number _ n

theorem u8_canonical : u8.Canonical (· < 256) := .number _ 1

theorem u16_canonical : u16.Canonical (· < 2 ^ 16) := .number _ 2

theorem u32_canonical : u32.Canonical (· < 2 ^ 32) := .number _ 4

theorem u64_canonical : u64.Canonical (· < 2 ^ 64) := .number _ 8

theorem nonZeroU16_canonical : nonZeroU16.Canonical fun n => n < 2 ^ 16 ∧ 0 < n :=
  u16_canonical.guard _ _

theorem lengthPrefix_canonical {max : Nat} (hmax : max < 2 ^ 32) :
    ∃ bound, (lengthPrefix max).Canonical (· < bound) ∧ max < bound := by
  unfold lengthPrefix
  split
  · exact ⟨256, u8_canonical, by omega⟩
  · split
    · exact ⟨2 ^ 16, u16_canonical, by omega⟩
    · exact ⟨2 ^ 32, u32_canonical, hmax⟩

section Collections

variable {valid : α → Prop} {c : Codec DecodeError α} {max min : Nat} {itemName typeName : String}
  {k : Codec DecodeError κ} {validK : κ → Prop}

theorem vecItem_canonical (hc : c.Canonical valid)
    (hbytes : (∀ x, valid x → c.encode x ≠ []) ∨ max ≤ zeroLengthElementMax) :
    Codec.CanonicalStep (vecItem itemName max c) c.encode fun _ x => valid x where
  sound h := by
    obtain ⟨⟨next, item⟩, h1, h⟩ := bind_ok h
    obtain ⟨_, -, h⟩ := bind_ok h
    cases h
    exact hc.sound h1
  complete {items x} rest hx := by
    refine ok_bind (hc.complete rest hx) (ok_bind (a := ()) (failIf_ok.mpr ?_) rfl)
    rintro ⟨hlen, hmax⟩
    rcases hbytes with hbytes | hfew
    · simp_all
    · omega

theorem prefixed_canonical {outOfBounds : Nat → DecodeError} {encodeItem : α → Bytes}
    {itemLength : α → Nat} {step : List α → Bytes → Except DecodeError (Bytes × α)}
    {next : List α → α → Prop} {p : List α → Prop} (hmax : max < 2 ^ 32)
    (h : Codec.CanonicalStep step encodeItem next)
    (hlength : ∀ items x, next items x → itemLength x = (encodeItem x).length)
    (hnext : ∀ xs, Codec.Extends next [] xs ↔ p xs) :
    (Codec.counted (lengthPrefix max) min max outOfBounds encodeItem itemLength step).Canonical
      fun xs => (min ≤ xs.length ∧ xs.length ≤ max) ∧ p xs := by
  obtain ⟨bound, hprefix, hbound⟩ := lengthPrefix_canonical hmax
  exact (Codec.Canonical.counted hprefix hbound h hlength).congr fun xs =>
    and_congr_right fun _ => hnext xs

theorem boundedVec_canonical (hc : c.Canonical valid) (hmax : max < 2 ^ 32)
    (hbytes : (∀ x, valid x → c.encode x ≠ []) ∨ max ≤ zeroLengthElementMax) :
    (boundedVec typeName itemName min max c).Canonical fun xs =>
      (min ≤ xs.length ∧ xs.length ≤ max) ∧ ∀ x ∈ xs, valid x :=
  prefixed_canonical hmax (vecItem_canonical hc hbytes) (fun _ _ hx => hc.length hx)
    fun _ => Codec.extends_of_forall

theorem u8_encode_ne_nil (x : Nat) : u8.encode x ≠ [] := List.cons_ne_nil _ _

theorem runtimeBoundedBytes_canonical (hmax : max < 2 ^ 32) :
    (runtimeBoundedBytes typeName max).Canonical fun xs => xs.length ≤ max ∧ ∀ x ∈ xs, x < 256 := by
  refine (Codec.Canonical.counted u32_canonical hmax
    (vecItem_canonical u8_canonical (.inl fun x _ => u8_encode_ne_nil x))
    fun _ x hx => u8_canonical.length hx).congr fun xs => ?_
  rw [Codec.extends_of_forall]
  simp

theorem setItem_canonical [DecidableEq α] (hc : c.Canonical valid) :
    Codec.CanonicalStep (setItem typeName c) c.encode fun items x => valid x ∧ x ∉ items where
  sound h := by
    obtain ⟨⟨next, item⟩, h1, h⟩ := bind_ok h
    obtain ⟨_, h2, h⟩ := bind_ok h
    cases h
    exact ⟨⟨(hc.sound h1).1, failIf_ok.mp h2⟩, (hc.sound h1).2⟩
  complete rest hx := ok_bind (hc.complete rest hx.1) (ok_bind (a := ()) (failIf_ok.mpr hx.2) rfl)

theorem orderedSet_canonical [DecidableEq α] (hc : c.Canonical valid) (hmax : max < 2 ^ 32) :
    (orderedSet typeName min max c).Canonical fun xs =>
      (min ≤ xs.length ∧ xs.length ≤ max) ∧ (∀ x ∈ xs, valid x) ∧ xs.Nodup := by
  refine prefixed_canonical hmax (setItem_canonical hc) (fun _ _ hx => hc.length hx.1) fun xs => ?_
  have hextends := @Codec.extends_of_nodup α [] xs valid α id List.nodup_nil
  simp_all

theorem checkKeyOrder_ok [LinearOrder κ] {last : Option κ} {key : κ} {index : Nat} :
    checkKeyOrder typeName last key index = .ok () ↔ ∀ l ∈ last, l < key := by
  unfold checkKeyOrder
  grind

theorem mapEntry_canonical [LinearOrder κ] (hk : k.Canonical validK) (hc : c.Canonical valid) :
    Codec.CanonicalStep (mapEntry typeName k c) (k.pair c).encode fun items x =>
      (validK x.1 ∧ valid x.2) ∧ ∀ last ∈ items.getLast?, last.1 < x.1 where
  sound {items b rest x} h := by
    obtain ⟨⟨b1, key⟩, h1, h⟩ := bind_ok h
    obtain ⟨_, h2, h⟩ := bind_ok h
    obtain ⟨⟨b2, value⟩, h3, h⟩ := bind_ok h
    cases h
    obtain ⟨hkey, rfl⟩ := hk.sound h1
    obtain ⟨hvalue, rfl⟩ := hc.sound h3
    refine ⟨⟨⟨hkey, hvalue⟩, fun last hlast => ?_⟩, List.append_assoc _ _ _⟩
    exact checkKeyOrder_ok.mp h2 last.1 (Option.mem_map_of_mem _ hlast)
  complete {items x} rest hx := by
    have h1 := hk.complete (c.encode x.2 ++ rest) hx.1.1
    rw [← List.append_assoc] at h1
    refine ok_bind h1 (ok_bind (a := ()) (checkKeyOrder_ok.mpr fun l hl => ?_)
      (ok_bind (hc.complete rest hx.1.2) rfl))
    grind

theorem bTreeMap_canonical [LinearOrder κ] (hk : k.Canonical validK) (hc : c.Canonical valid)
    (hmax : max < 2 ^ 32) :
    (bTreeMap typeName min max k c).Canonical fun xs =>
      (min ≤ xs.length ∧ xs.length ≤ max) ∧ (∀ x ∈ xs, validK x.1 ∧ valid x.2) ∧
        (xs.map (·.1)).Pairwise (· < ·) :=
  prefixed_canonical hmax (mapEntry_canonical hk hc) (fun _ _ hx => (hk.pair hc).length hx.1)
    fun _ => Codec.extends_of_ascending List.Pairwise.nil

end Collections

theorem fr_canonical : fr.Canonical (· < frModulus) :=
  ((Codec.Canonical.number _ 32).guard _ _).congr fun n => by
    have hmodulus : frModulus < 256 ^ 32 := by decide
    exact ⟨fun h => h.2, fun h => ⟨h.trans hmodulus, h⟩⟩

theorem proofOfSelection_canonical : proofOfSelection.Canonical (· < frModulus) :=
  ((byteArray_canonical 32).guard _ _).congr fun n => by
    have hmodulus : frModulus < 256 ^ 32 := by decide
    exact ⟨fun h => h.2, fun h => ⟨h.trans hmodulus, h⟩⟩

/-- The bytes of a proof of quota. -/
def IsProofOfQuota (n : Nat) : Prop := n < 256 ^ (32 + compressedProofSize) ∧ n % 256 ^ 32 < frModulus

theorem proofOfQuota_canonical : proofOfQuota.Canonical IsProofOfQuota :=
  (byteArray_canonical _).guard _ _

section Keys

variable [Leaves]

/-- The bytes of a key. -/
def IsUnverifiedKey (k : Ed25519PublicKey) : Prop := k < 256 ^ 32 ∧ Leaves.verifyingKey k = true

theorem unverifiedKey_canonical : unverifiedKey.Canonical IsUnverifiedKey :=
  (byteArray_canonical 32).guard _ _

/-- The bytes of a key that is not of small order. -/
def IsPublicKey [Primitives] (k : Ed25519PublicKey) : Prop :=
  IsUnverifiedKey k ∧ Primitives.isWeak k = false

theorem publicKey_canonical [Primitives] : publicKey.Canonical IsPublicKey :=
  unverifiedKey_canonical.guard _ _

theorem locator_canonical :
    locator.Canonical fun bytes => (∀ b ∈ bytes, b < 256) ∧ IsLocator bytes := by
  refine ((boundedVec_canonical u8_canonical (by decide)
    (.inl fun x _ => u8_encode_ne_nil x)).guard _ _).congr fun bytes => ?_
  constructor
  · grind
  · rintro ⟨hbytes, hlocator⟩
    exact ⟨⟨⟨Nat.zero_le _, hlocator.1⟩, hbytes⟩, hlocator⟩

end Keys

end Wire

end Logos.Mantle
