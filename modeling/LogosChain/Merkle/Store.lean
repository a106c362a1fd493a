import LogosChain.Merkle.Canonical

/-!
# The Merkle store over the dynamic tree (`merkle/tree`)

A store keeps items under keys and commits to each of them with a leaf of a dynamic Merkle tree
(`LeafExtractor`). What an insertion, an update or a removal does is said once (`Step`). Inserting
under a key that is there leaves its old leaf in the tree, at a position of no key.
-/

namespace Logos.Merkle

open Base

/-- The leaf that commits to an item under a key. -/
class LeafExtractor (K V Hash : Type) where
  leaf : K → V → Hash

/-- Why a call fails. -/
inductive Error where
  /-- "Item not found" -/
  | notFound
deriving DecidableEq, Repr

/-- A store: the tree, and the items with their positions. -/
structure MerkleTree (K V Hash : Type) where
  merkle : DynamicMerkleTree Hash
  items : Map K (V × Nat)

/-- A call of the store. -/
inductive Op (K V : Type) where
  | insert (key : K) (item : V)
  | update (key : K) (item : V)
  | remove (key : K)
deriving DecidableEq, Repr

/-- What a call returns. -/
inductive Answer (V : Type) where
  | inserted (position : Nat)
  | updated
  | removed (item : V)
  | notFound
deriving DecidableEq, Repr

variable {K V Hash : Type} [DecidableEq K]

namespace Op

def key : Op K V → K
  | insert key _ => key
  | update key _ => key
  | remove key => key

/-- The keys of the items after a call. -/
def keysAfter (keys : Finset K) : Op K V → Finset K
  | insert key _ => Insert.insert key keys
  | update _ _ => keys
  | remove key => keys.erase key

/-- A call that does not insert under a key that is there. -/
def Fresh (keys : Finset K) : Op K V → Prop
  | insert key _ => key ∉ keys
  | _ => True

/-- There is room for an item that a call inserts. -/
def Fits (keys : Finset K) : Op K V → Prop
  | insert _ _ => keys.card < 2 ^ treeHeightExceptRoot
  | _ => True

/-- Each call satisfies a condition on the keys before it. -/
def Along (P : Finset K → Op K V → Prop) : Finset K → List (Op K V) → Prop
  | _, [] => True
  | keys, op :: ops => P keys op ∧ Along P (op.keysAfter keys) ops

instance (keys : Finset K) : (op : Op K V) → Decidable (op.Fresh keys)
  | insert key _ => inferInstanceAs (Decidable (key ∉ keys))
  | update _ _ => isTrue trivial
  | remove _ => isTrue trivial

instance (keys : Finset K) : (op : Op K V) → Decidable (op.Fits keys)
  | insert _ _ => inferInstanceAs (Decidable (keys.card < _))
  | update _ _ => isTrue trivial
  | remove _ => isTrue trivial

/-- Whether each call does, by going through the calls. -/
def decidableAlong (P : Finset K → Op K V → Prop) [∀ keys op, Decidable (P keys op)] :
    ∀ keys ops, Decidable (Along P keys ops)
  | _, [] => isTrue trivial
  | keys, op :: ops =>
    have := decidableAlong P (op.keysAfter keys) ops
    inferInstanceAs (Decidable (P keys op ∧ Along P (op.keysAfter keys) ops))

instance {P : Finset K → Op K V → Prop} [∀ keys op, Decidable (P keys op)] {keys : Finset K}
    {ops : List (Op K V)} : Decidable (Along P keys ops) :=
  decidableAlong P keys ops

end Op

namespace MerkleTree

def new : MerkleTree K V Hash := ⟨.new, ∅⟩

def size (t : MerkleTree K V Hash) : Nat := t.merkle.size

variable [MerkleHasher Hash]

def root (t : MerkleTree K V Hash) : Except Panic Hash := t.merkle.rootHash

/-- The path of the leaf of a key. -/
def path (t : MerkleTree K V Hash) (key : K) : Except Panic (Option (List (MerkleNode Hash))) :=
  match t.items.lookup key with
  | none => .ok none
  | some (_, pos) => t.merkle.path pos

variable [LeafExtractor K V Hash] {t t' : MerkleTree K V Hash} {op : Op K V} {answer : Answer V}
  {k : K} {v : V}

/-- Puts an item under a key at the lowest free position. -/
def insert (t : MerkleTree K V Hash) (key : K) (item : V) :
    Except Panic (MerkleTree K V Hash × Nat) := do
  let (merkle, pos) ← t.merkle.insert (LeafExtractor.leaf key item)
  return (⟨merkle, t.items.insert key (item, pos)⟩, pos)

/-- Replaces the item under a key and keeps its position. -/
def update (t : MerkleTree K V Hash) (key : K) (item : V) :
    Except (Failure Error) (MerkleTree K V Hash) :=
  match t.items.lookup key with
  | none => .error (.error .notFound)
  | some (_, pos) => do
    let merkle ← (t.merkle.update pos (LeafExtractor.leaf key item)).mapError .panic
    return ⟨merkle, t.items.insert key (item, pos)⟩

/-- Takes the item under a key out and frees its position. -/
def remove (t : MerkleTree K V Hash) (key : K) :
    Except (Failure Error) (MerkleTree K V Hash × V) :=
  match t.items.lookup key with
  | none => .error (.error .notFound)
  | some (item, pos) => do
    let merkle ← (t.merkle.remove pos).mapError .panic
    return (⟨merkle, t.items.erase key⟩, item)

/-- A call; an error leaves the store as it is. -/
def apply (t : MerkleTree K V Hash) : Op K V → Except Panic (MerkleTree K V Hash × Answer V)
  | .insert key item => do
    let (t', pos) ← t.insert key item
    return (t', .inserted pos)
  | .update key item =>
    match t.update key item with
    | .ok t' => .ok (t', .updated)
    | .error (.error .notFound) => .ok (t, .notFound)
    | .error (.panic p) => .error p
  | .remove key =>
    match t.remove key with
    | .ok (t', item) => .ok (t', .removed item)
    | .error (.error .notFound) => .ok (t, .notFound)
    | .error (.panic p) => .error p

/-- A sequence of calls, with what they return. -/
def run (t : MerkleTree K V Hash) :
    List (Op K V) → Except Panic (MerkleTree K V Hash × List (Op K V × Answer V))
  | [] => .ok (t, [])
  | op :: ops => do
    let (t', answer) ← t.apply op
    let (t'', events) ← t'.run ops
    return (t'', (op, answer) :: events)

/-! ## The invariant -/

/-- Each item has its leaf at a position of its own. -/
structure Ok (t : MerkleTree K V Hash) : Prop where
  merkle : t.merkle.Ok
  leaf : ∀ k v p, t.items.lookup k = some (v, p) →
    t.merkle.get p = some (LeafExtractor.leaf k v)
  unique : ∀ k k' v v' p, t.items.lookup k = some (v, p) → t.items.lookup k' = some (v', p) → k = k'

theorem ok_new : (new : MerkleTree K V Hash).Ok where
  merkle := DynamicMerkleTree.ok_new
  leaf k v p h := by
    rw [new, Finmap.lookup_empty] at h
    cases h
  unique k k' v v' p h := by
    rw [new, Finmap.lookup_empty] at h
    cases h

/-- What a call does to the tree and to the items. -/
inductive Step (t t' : MerkleTree K V Hash) : Op K V → Answer V → Prop where
  | inserted {k : K} {v : V} {p : Nat} (hlt : p < 2 ^ treeHeightExceptRoot)
      (hfree : ArrayTree.FirstFree t.merkle.get p)
      (hmerkle : t'.merkle.Ok)
      (hget : t'.merkle.get = Function.update t.merkle.get p (some (LeafExtractor.leaf k v)))
      (hitems : t'.items = t.items.insert k (v, p)) : Step t t' (.insert k v) (.inserted p)
  | updated {k : K} {v old : V} {p : Nat} (hold : t.items.lookup k = some (old, p))
      (hmerkle : t'.merkle.Ok)
      (hget : t'.merkle.get = Function.update t.merkle.get p (some (LeafExtractor.leaf k v)))
      (hitems : t'.items = t.items.insert k (v, p)) : Step t t' (.update k v) .updated
  | notUpdated {k : K} {v : V} (hnone : t.items.lookup k = none) (hsame : t' = t) :
      Step t t' (.update k v) .notFound
  | removed {k : K} {v : V} {p : Nat} (hold : t.items.lookup k = some (v, p))
      (hmerkle : t'.merkle.Ok)
      (hget : t'.merkle.get = Function.update t.merkle.get p none)
      (hitems : t'.items = t.items.erase k) : Step t t' (.remove k) (.removed v)
  | notRemoved {k : K} (hnone : t.items.lookup k = none) (hsame : t' = t) :
      Step t t' (.remove k) .notFound

section

variable (ht : t.Ok)
include ht

theorem Ok.apply_insert (hsize : t.size < 2 ^ treeHeightExceptRoot) (k : K) (v : V) :
    ∃ t' p, t.apply (.insert k v) = .ok (t', .inserted p) ∧ Step t t' (.insert k v) (.inserted p) := by
  obtain ⟨merkle, p, hinsert, hmerkle, hlt, hfree, hget⟩ :=
    ht.merkle.insert hsize (LeafExtractor.leaf k v)
  refine ⟨⟨merkle, t.items.insert k (v, p)⟩, p, ?_, .inserted hlt hfree hmerkle hget rfl⟩
  exact ok_bind (ok_bind hinsert rfl) rfl

theorem Ok.apply_update (k : K) (v : V) :
    ∃ t' answer, t.apply (.update k v) = .ok (t', answer) ∧ Step t t' (.update k v) answer := by
  cases hlookup : t.items.lookup k with
  | none =>
    refine ⟨t, .notFound, ?_, .notUpdated hlookup rfl⟩
    simp only [apply, update, hlookup]
  | some e =>
    obtain ⟨old, p⟩ := e
    obtain ⟨merkle, hupdate, hmerkle, hget⟩ :=
      ht.merkle.update (ht.leaf k old p hlookup) (LeafExtractor.leaf k v)
    refine ⟨⟨merkle, t.items.insert k (v, p)⟩, .updated, ?_, .updated hlookup hmerkle hget rfl⟩
    simp only [apply, update, hlookup, hupdate]
    rfl

theorem Ok.apply_remove (k : K) :
    ∃ t' answer, t.apply (.remove k) = .ok (t', answer) ∧ Step t t' (.remove k) answer := by
  cases hlookup : t.items.lookup k with
  | none =>
    refine ⟨t, .notFound, ?_, .notRemoved hlookup rfl⟩
    simp only [apply, remove, hlookup]
  | some e =>
    obtain ⟨old, p⟩ := e
    obtain ⟨merkle, hremove, hmerkle, hget⟩ := ht.merkle.remove (ht.leaf k old p hlookup)
    refine ⟨⟨merkle, t.items.erase k⟩, .removed old, ?_, .removed hlookup hmerkle hget rfl⟩
    simp only [apply, remove, hlookup, hremove]
    rfl

theorem Ok.exists_step (op : Op K V)
    (hroom : ∀ k v, op = .insert k v → t.size < 2 ^ treeHeightExceptRoot) :
    ∃ t' answer, t.apply op = .ok (t', answer) ∧ Step t t' op answer := by
  cases op with
  | insert k v =>
    obtain ⟨t', p, happly, hstep⟩ := ht.apply_insert (hroom k v rfl) k v
    exact ⟨t', _, happly, hstep⟩
  | update k v => exact ht.apply_update k v
  | remove k => exact ht.apply_remove k

theorem Ok.step (h : t.apply op = .ok (t', answer)) : Step t t' op answer := by
  by_cases hroom : ∀ k v, op = .insert k v → t.size < 2 ^ treeHeightExceptRoot
  · obtain ⟨t₁, answer₁, happly, hstep⟩ := ht.exists_step op hroom
    rw [h] at happly
    cases happly
    exact hstep
  · push Not at hroom
    obtain ⟨k, v, rfl, hfull⟩ := hroom
    obtain ⟨⟨t₁, p⟩, hinsert, -⟩ := bind_ok h
    obtain ⟨⟨merkle, p'⟩, hmerkle, -⟩ := bind_ok hinsert
    rw [ht.merkle.insert_full hfull] at hmerkle
    cases hmerkle

/-- An item that is written at a position of no other key. -/
theorem Ok.write {p : Nat} (hmerkle : t'.merkle.Ok)
    (hget : t'.merkle.get = Function.update t.merkle.get p (some (LeafExtractor.leaf k v)))
    (hitems : t'.items = t.items.insert k (v, p))
    (hother : ∀ k' v', t.items.lookup k' = some (v', p) → k' = k) : t'.Ok := by
  have hlookup : ∀ k', t'.items.lookup k' = if k' = k then some (v, p) else t.items.lookup k' := by
    intro k'
    rw [hitems]
    exact Map.lookup_insert_ite _ _ _ _
  refine ⟨hmerkle, fun k' v' p' h => ?_, fun k₁ k₂ v₁ v₂ p' h₁ h₂ => ?_⟩
  · rw [hlookup] at h
    rw [hget]
    grind [leaf]
  · grind [unique]

theorem Ok.not_lookup_of_free {p : Nat} (hfree : t.merkle.get p = none) (k : K) (v : V) :
    t.items.lookup k ≠ some (v, p) := by
  intro h
  rw [ht.leaf k v p h] at hfree
  cases hfree

end

theorem Step.ok (hs : Step t t' op answer) (ht : t.Ok) : t'.Ok := by
  cases hs with
  | inserted hlt hfree hmerkle hget hitems =>
    exact ht.write hmerkle hget hitems fun k' v' h => absurd h (ht.not_lookup_of_free hfree.1 k' v')
  | updated hold hmerkle hget hitems =>
    grind [Ok.write, Ok.unique]
  | notUpdated _ hsame => exact hsame ▸ ht
  | @removed k v p hold hmerkle hget hitems =>
    have hlookup : ∀ k', t'.items.lookup k' = if k' = k then none else t.items.lookup k' := by
      grind [Map.lookup_erase_ite]
    have hsome : ∀ {k' e}, t'.items.lookup k' = some e → k' ≠ k ∧ t.items.lookup k' = some e := by
      grind
    refine ⟨hmerkle, fun k' v' p' h => ?_, fun k₁ k₂ v₁ v₂ p' h₁ h₂ =>
      ht.unique k₁ k₂ v₁ v₂ p' (hsome h₁).2 (hsome h₂).2⟩
    obtain ⟨hk, h⟩ := hsome h
    have hp : p' ≠ p := fun hp => hk (ht.unique k' k v' v p (hp ▸ h) hold)
    rw [hget, Function.update_of_ne hp]
    exact ht.leaf k' v' p' h
  | notRemoved _ hsame => exact hsame ▸ ht

/-! ## The items -/

theorem Step.lookup (hs : Step t t' op answer) (k : K) (hk : k ≠ op.key) :
    t'.items.lookup k = t.items.lookup k := by
  cases hs with
  | inserted _ _ _ _ hitems => rw [hitems]; exact Finmap.lookup_insert_of_ne _ hk
  | updated _ _ _ hitems => rw [hitems]; exact Finmap.lookup_insert_of_ne _ hk
  | notUpdated _ hsame => rw [hsame]
  | removed _ _ _ hitems => rw [hitems]; exact Finmap.lookup_erase_ne hk
  | notRemoved _ hsame => rw [hsame]

theorem Step.keys (hs : Step t t' op answer) : t'.items.keys = op.keysAfter t.items.keys := by
  have hmem : ∀ {k : K} {e : V × Nat}, t.items.lookup k = some e → k ∈ t.items.keys := fun h =>
    Finmap.mem_keys.mpr (Finmap.mem_of_lookup_eq_some h)
  cases hs with
  | inserted _ _ _ _ hitems => rw [hitems]; exact Map.keys_insert _ _ _
  | updated hold _ _ hitems =>
    rw [hitems, Map.keys_insert]
    exact Finset.insert_eq_self.mpr (hmem hold)
  | notUpdated _ hsame => rw [hsame]; rfl
  | removed _ _ _ hitems => rw [hitems]; exact Finmap.keys_erase _ _
  | notRemoved hnone hsame =>
    rw [hsame]
    refine (Finset.erase_eq_self.mpr fun hk => ?_).symm
    exact Finmap.lookup_eq_none.mp hnone (Finmap.mem_keys.mp hk)

/-! ## Leaves without a key -/

/-- Every leaf of the tree is the leaf of an item. -/
def NoOrphans (t : MerkleTree K V Hash) : Prop :=
  ∀ p, t.merkle.get p ≠ none → ∃ k v, t.items.lookup k = some (v, p)

theorem Step.noOrphans_iff (hs : Step t t' op answer) (ht : t.Ok) :
    t'.NoOrphans ↔ t.NoOrphans ∧ op.Fresh t.items.keys := by
  have hleaf := ht.leaf
  have hunique := ht.unique
  unfold NoOrphans
  cases hs with
  | @inserted k v p hlt hfree hmerkle hget hitems =>
    have hlookup : ∀ k', t'.items.lookup k' = if k' = k then some (v, p) else t.items.lookup k' := by
      grind [Map.lookup_insert_ite]
    have hfresh : (Op.insert k v).Fresh t.items.keys ↔ t.items.lookup k = none := by
      rw [Op.Fresh, Finmap.mem_keys, Finmap.lookup_eq_none]
    have hp := hfree.1
    rw [hfresh, hget]
    constructor
    · intro hno
      refine ⟨fun q hq => ?_, ?_⟩
      · -- an old leaf has its key still
        obtain ⟨k', v', h⟩ := hno q (by grind)
        grind
      · -- an old leaf of the key would have no key now
        by_contra hold
        obtain ⟨⟨v₀, p₀⟩, hold⟩ := Option.ne_none_iff_exists'.mp hold
        obtain ⟨k', v', h⟩ := hno p₀ (by grind)
        grind
    · grind
  | @updated k v old p hold hmerkle hget hitems =>
    have hlookup : ∀ k', t'.items.lookup k' = if k' = k then some (v, p) else t.items.lookup k' := by
      grind [Map.lookup_insert_ite]
    rw [hget]
    refine ⟨fun hno => ⟨fun q hq => ?_, trivial⟩, fun hno q hq => ?_⟩
    · obtain ⟨k', v', h⟩ := hno q (by grind)
      grind
    · grind
  | notUpdated _ hsame =>
    rw [hsame]
    exact (and_iff_left trivial).symm
  | @removed k v p hold hmerkle hget hitems =>
    have hlookup : ∀ k', t'.items.lookup k' = if k' = k then none else t.items.lookup k' := by
      grind [Map.lookup_erase_ite]
    rw [hget]
    refine ⟨fun hno => ⟨fun q hq => ?_, trivial⟩, fun hno q hq => ?_⟩
    · by_cases hqp : q = p
      · exact ⟨k, v, by grind⟩
      · obtain ⟨k', v', h⟩ := hno q (by grind)
        exact ⟨k', v', by grind⟩
    · grind
  | notRemoved _ hsame =>
    rw [hsame]
    exact (and_iff_left trivial).symm

/-! ## Runs -/

variable {ops : List (Op K V)} {events : List (Op K V × Answer V)}

theorem run_cons (h : t.run (op :: ops) = .ok (t', events)) :
    ∃ t₁ answer rest, t.apply op = .ok (t₁, answer) ∧ t₁.run ops = .ok (t', rest) ∧
      events = (op, answer) :: rest := by
  obtain ⟨⟨t₁, answer⟩, happly, h⟩ := bind_ok h
  obtain ⟨⟨t₂, rest⟩, hrest, h⟩ := bind_ok h
  cases h
  exact ⟨t₁, answer, rest, happly, hrest, rfl⟩

/-- After a run every leaf has its key if and only if no insertion was under a key that was there. -/
theorem Ok.run (ht : t.Ok) (h : t.run ops = .ok (t', events)) :
    t'.Ok ∧ (t'.NoOrphans ↔ t.NoOrphans ∧ Op.Along Op.Fresh t.items.keys ops) := by
  induction ops generalizing t events with
  | nil =>
    cases h
    exact ⟨ht, (and_iff_left trivial).symm⟩
  | cons op ops ih =>
    obtain ⟨t₁, answer, rest, happly, hrest, -⟩ := run_cons h
    have hstep := ht.step happly
    grind [Op.Along, Step.ok, Step.noOrphans_iff, Step.keys]

end MerkleTree

end Logos.Merkle
