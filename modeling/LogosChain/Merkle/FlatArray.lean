import LogosChain.Base.Run
import LogosChain.Merkle.Store

/-!
# The store refines a flat array

The specification of a store is a flat array of items (`Slots`). A store that is used with fresh
keys and has room behaves as this array, and its root is that of the full tree of height 32 over the
leaves. The flat store of the ledger (`FlatTree`) is such an array with the keys as leaves.
-/

namespace Logos.Merkle

open Base LeafExtractor ArrayTree Finmap Option Function

variable {K V Hash : Type}

/-- An array of items under keys. -/
abbrev Slots (K V : Type) : Type := Nat → Option (K × V)

namespace Slots

def empty : Slots K V := fun _ => none

/-- The calls of a store on the array. -/
inductive Step (a : Slots K V) : Op K V × Answer V → Slots K V → Prop where
  | inserted {k : K} {v : V} {p : Nat} (hfree : ArrayTree.FirstFree a p) :
      Step a (.insert k v, .inserted p) (update a p (some (k, v)))
  | updated {k : K} {v old : V} {p : Nat} (hold : a p = some (k, old)) :
      Step a (.update k v, .updated) (update a p (some (k, v)))
  | notUpdated {k : K} {v : V} (hnone : ∀ p old, a p ≠ some (k, old)) :
      Step a (.update k v, .notFound) a
  | removed {k : K} {v : V} {p : Nat} (hold : a p = some (k, v)) :
      Step a (.remove k, .removed v) (update a p none)
  | notRemoved {k : K} (hnone : ∀ p old, a p ≠ some (k, old)) : Step a (.remove k, .notFound) a

variable [MerkleHasher Hash] [LeafExtractor K V Hash]

/-- The leaves of the full tree over the array. -/
def leaves (a : Slots K V) (p : Nat) : Hash :=
  match a p with
  | some (k, v) => leaf k v
  | none => MerkleHasher.emptyValue

end Slots

variable [DecidableEq K] [MerkleHasher Hash] [LeafExtractor K V Hash]

namespace MerkleTree

/-- What can be seen of a store is what the array says. -/
structure Shows (t : MerkleTree K V Hash) (a : Slots K V) : Prop where
  items : ∀ k v p, t.items.lookup k = some (v, p) ↔ a p = some (k, v)
  within : ∀ p, a p ≠ none → p < 2 ^ treeHeightExceptRoot
  root : t.root = .ok (ArrayTree.root MerkleHasher.compress treeHeightExceptRoot a.leaves)
  size : t.size = t.items.keys.card
  path : ∀ k v p, a p = some (k, v) → ∃ path, t.path k = .ok (some path) ∧
    path.length = treeHeightExceptRoot ∧
    t.root = .ok (Node.pathRoot (leaf k v) path)

/-- Items and leaves of a store are those of the array. -/
structure InArray (t : MerkleTree K V Hash) (a : Slots K V) : Prop where
  ok : t.Ok
  noOrphans : t.NoOrphans
  items : ∀ k v p, t.items.lookup k = some (v, p) ↔ a p = some (k, v)

variable {t t' : MerkleTree K V Hash} {a : Slots K V} {op : Op K V} {answer : Answer V}

theorem inArray_new : (new : MerkleTree K V Hash).InArray Slots.empty where
  ok := ok_new
  noOrphans p h := absurd rfl h
  items k v p := by
    rw [new, lookup_empty]
    constructor
    · intro h
      cases h
    · intro h
      cases h

variable (h : t.InArray a)
include h

theorem InArray.get_eq (p : Nat) : t.merkle.get p = (a p).map fun e => leaf e.1 e.2 := by
  cases hp : a p with
  | some e => exact h.ok.leaf e.1 e.2 p ((h.items e.1 e.2 p).mpr hp)
  | none =>
    by_contra hno
    obtain ⟨k, v, hlookup⟩ := h.noOrphans p hno
    rw [(h.items k v p).mp hlookup] at hp
    cases hp

/-- The size is the number of the items, because each has its own position. -/
theorem InArray.size_eq : t.size = t.items.keys.card := by
  have hcount : t.size = _ := h.ok.merkle.size_eq
  rw [hcount, Nat.count_eq_card_filter_range]
  refine (Finset.card_nbij (fun k => ((t.items.lookup k).map (·.2)).getD 0) ?_ ?_ ?_).symm
  · intro k hk
    obtain ⟨⟨v, p⟩, hlookup⟩ := mem_iff.mp (mem_keys.mp hk)
    have hget := h.ok.leaf k v p hlookup
    simp [hlookup, hget, h.ok.merkle.lt_of_get hget]
  · intro k hk k' hk' heq
    obtain ⟨⟨v, p⟩, hlookup⟩ := mem_iff.mp (mem_keys.mp hk)
    obtain ⟨⟨v', p'⟩, hlookup'⟩ := mem_iff.mp (mem_keys.mp hk')
    simp only [hlookup, hlookup', map_some, getD_some] at heq
    subst heq
    exact h.ok.unique k k' v v' p hlookup hlookup'
  · intro p hp
    simp only [Finset.coe_filter, Finset.mem_range, Set.mem_ofPred_eq] at hp
    obtain ⟨k, v, hlookup⟩ := h.noOrphans p (ne_none_iff_isSome.mpr hp.2)
    grind [mem_of_lookup_eq_some, mem_keys]

theorem InArray.shows : t.Shows a where
  items := h.items
  within p hp := by
    obtain ⟨e, he⟩ := ne_none_iff_exists'.mp hp
    exact h.ok.merkle.lt_of_get ((h.get_eq p).trans (congrArg _ he))
  root := by
    rw [root, h.ok.merkle.rootHash, Node.arrayRoot]
    congr 2
    funext p
    rw [h.get_eq, Slots.leaves]
    cases a p <;> rfl
  size := h.size_eq
  path k v p hp := by
    have hlookup := (h.items k v p).mpr hp
    obtain ⟨path, hpath, hlength, hroot⟩ := h.ok.merkle.path (h.ok.leaf k v p hlookup)
    refine ⟨path, ?_, hlength, hroot⟩
    rw [MerkleTree.path, hlookup]
    exact hpath

/-- A call with a fresh key acts alike on store and array. -/
theorem InArray.step (hs : Step t t' op answer) (hf : op.Fresh t.items.keys) :
    ∃ a', Slots.Step a (op, answer) a' ∧ t'.InArray a' := by
  have hok := hs.ok h.ok
  have hno := (hs.noOrphans_iff h.ok).mpr ⟨h.noOrphans, hf⟩
  have hitems := h.items
  have hnone : ∀ {k : K}, t.items.lookup k = none → ∀ p v, a p ≠ some (k, v) := by
    intro k hk p v hp
    rw [(h.items k v p).mpr hp] at hk
    cases hk
  cases hs with
  | @inserted k v p hlt hfree hmerkle hget hitems' =>
    have hfree' : ArrayTree.FirstFree a p := by
      refine ⟨?_, fun q hq => ?_⟩
      · have := hfree.1
        rwa [h.get_eq, map_eq_none_iff] at this
      · have := hfree.2 q hq
        rwa [h.get_eq, Ne, map_eq_none_iff] at this
    refine ⟨_, .inserted hfree', hok, hno, fun k' v' p' => ?_⟩
    have hfresh : t.items.lookup k = none := by
      rw [lookup_eq_none]
      exact fun hmem => hf (mem_keys.mpr hmem)
    rw [hitems', Map.lookup_insert_ite, update_apply]
    have := hfree'.1
    grind
  | @updated k v old p hold hmerkle hget hitems' =>
    refine ⟨_, .updated ((h.items k old p).mp hold), hok, hno, fun k' v' p' => ?_⟩
    grind [Map.lookup_insert_ite]
  | notUpdated hk hsame => exact ⟨a, .notUpdated (hnone hk), hsame ▸ h⟩
  | @removed k v p hold hmerkle hget hitems' =>
    refine ⟨_, .removed ((h.items k v p).mp hold), hok, hno, fun k' v' p' => ?_⟩
    grind [Map.lookup_erase_ite]
  | notRemoved hk hsame => exact ⟨a, .notRemoved (hnone hk), hsame ▸ h⟩

/-- A sequence of calls with fresh keys and with room does not panic. -/
theorem InArray.run {ops : List (Op K V)}
    (hops : Op.Along (fun keys op => op.Fresh keys ∧ op.Fits keys) t.items.keys ops) :
    ∃ t' events a', t.run ops = .ok (t', events) ∧ events.map (·.1) = ops ∧
      Run Slots.Step a events a' ∧ t'.InArray a' := by
  induction ops generalizing t a with
  | nil => exact ⟨t, [], a, rfl, rfl, .nil a, h⟩
  | cons op ops ih =>
    obtain ⟨⟨hfresh, hfits⟩, hrest⟩ := hops
    have hroom : ∀ k v, op = .insert k v → t.size < 2 ^ treeHeightExceptRoot := by
      rintro k v rfl
      rw [h.size_eq]
      exact hfits
    obtain ⟨t₁, answer, happly, hstep⟩ := h.ok.exists_step op hroom
    obtain ⟨a₁, harray, h₁⟩ := h.step hstep hfresh
    rw [← hstep.keys] at hrest
    obtain ⟨t', events, a', hrun, hmap, harrays, h'⟩ := ih h₁ hrest
    refine ⟨t', (op, answer) :: events, a', ok_bind happly (ok_bind hrun rfl), ?_, ?_, h'⟩
    · rw [List.map_cons, hmap]
    · exact Run.append (Run.snoc (.nil a) harray) harrays

end MerkleTree

/-- **The store refines a flat array.** Calls with fresh keys and room do not panic, and the array
answers them in the same way. Each item has a path to the root, and no call on another key moves it.
-/
theorem store_refines_array (ops : List (Op K V))
    (hops : Op.Along (fun keys op => op.Fresh keys ∧ op.Fits keys) ∅ ops) :
    ∃ (t : MerkleTree K V Hash) (events : List (Op K V × Answer V)) (a : Slots K V),
      MerkleTree.new.run ops = .ok (t, events) ∧ events.map (·.1) = ops ∧
      Run Slots.Step Slots.empty events a ∧ t.Shows a ∧
      ∀ op t' answer, t.apply op = .ok (t', answer) →
        ∀ k, k ≠ op.key → t'.items.lookup k = t.items.lookup k := by
  have hnew : (MerkleTree.new : MerkleTree K V Hash).InArray Slots.empty := MerkleTree.inArray_new
  obtain ⟨t, events, a, hrun, hmap, harray, h⟩ := hnew.run hops
  exact ⟨t, events, a, hrun, hmap, harray, h.shows, fun _ _ _ happly => (h.ok.step happly).lookup⟩

@[reducible] def MerkleHasher.plain : MerkleHasher Nat := ⟨0, fun left right => 2 * left + 3 * right + 1⟩

@[reducible] def LeafExtractor.plain : LeafExtractor Nat Nat Nat := ⟨fun key item => key + item⟩

/-- A freed position is the next one to be taken. -/
theorem store_reuses_position :
    letI := MerkleHasher.plain
    letI := plain
    let ops : List (Op Nat Nat) :=
      [.insert 1 10, .insert 2 20, .remove 1, .insert 3 30, .update 2 25, .remove 7]
    ∃ (t : MerkleTree Nat Nat Nat) (events : List (Op Nat Nat × Answer Nat)) (a : Slots Nat Nat),
      MerkleTree.new.run ops = .ok (t, events) ∧
      events.map (·.2) = [.inserted 0, .inserted 1, .removed 10, .inserted 0, .updated, .notFound] ∧
      Run Slots.Step Slots.empty events a ∧ t.Shows a := by
  let _ := MerkleHasher.plain
  let _ := plain
  intro ops
  have hops : Op.Along (fun keys op => op.Fresh keys ∧ op.Fits keys) ∅ ops := by
    decide
  obtain ⟨t, events, a, hrun, -, harray, hshows, -⟩ := @store_refines_array Nat Nat Nat _ _ _ ops hops
  have hanswers :
      ((MerkleTree.new : MerkleTree Nat Nat Nat).run ops).toOption.map (fun r => r.2.map (·.2)) =
      some [.inserted 0, .inserted 1, .removed 10, .inserted 0, .updated, .notFound] := by
    decide +kernel
  rw [hrun] at hanswers
  exact ⟨t, events, a, hrun, Option.some.inj hanswers, harray, hshows⟩

/-! ## The flat store of the ledger -/

/-- The calls on the flat store, whose leaves are the keys. -/
def flatApply (t : FlatTree K V) : Op K V → FlatTree K V
  | .insert k v => t.insert k v
  | .update k v =>
    match t.items.lookup k with
    | some e => ⟨t.leaves, t.items.insert k (v, e.2)⟩
    | none => t
  | .remove k => ((t.remove k).map (·.1)).getD t

/-- The flat store has the items of the array, with keys as leaves. -/
structure Slots.Flat (a : Slots K V) (t : FlatTree K V) : Prop where
  items : ∀ k v p, t.items.lookup k = some (v, p) ↔ a p = some (k, v)
  leaves : ∀ p, t.leaves[p]?.join = (a p).map (·.1)

namespace Slots.Flat

variable {a a' : Slots K V} {t : FlatTree K V} {op : Op K V} {answer : Answer V}

theorem firstEmptyIndex (h : a.Flat t) : ArrayTree.FirstFree a t.firstEmptyIndex := by
  unfold FlatTree.firstEmptyIndex
  refine ⟨?_, fun q hq => ?_⟩
  · have hjoin := h.leaves (t.leaves.findIdx (·.isNone))
    grind [map_eq_none_iff, isNone_iff_eq_none]
  · have hlt : q < t.leaves.length := hq.trans_le List.findIdx_le_length
    have hsome := List.not_of_lt_findIdx hq
    have hjoin := h.leaves q
    intro hnone
    rw [List.getElem?_eq_getElem hlt, hnone] at hjoin
    rw [map_none] at hjoin
    cases hleaf : t.leaves[q] with
    | none =>
      rw [hleaf] at hsome
      cases hsome
    | some k =>
      rw [hleaf] at hjoin
      cases hjoin

omit [MerkleHasher Hash] [LeafExtractor K V Hash] in
theorem leaves_insert (t : FlatTree K V) (k : K) (v : V) (p : Nat) :
    (t.insert k v).leaves[p]?.join =
      if p = t.firstEmptyIndex then some k else t.leaves[p]?.join := by
  have hle : t.firstEmptyIndex ≤ t.leaves.length := List.findIdx_le_length
  unfold FlatTree.insert
  by_cases hlt : t.firstEmptyIndex < t.leaves.length
  · grind
  · grind

theorem step (h : a.Flat t) (hs : Slots.Step a (op, answer) a')
    (hf : ∀ k v, op = .insert k v → t.items.lookup k = none) : a'.Flat (flatApply t op) := by
  have hitems := h.items
  cases hs with
  | @inserted k v p hfree =>
    have hk := hf k v rfl
    obtain rfl : p = t.firstEmptyIndex := hfree.unique h.firstEmptyIndex
    refine ⟨fun k' v' p' => ?_, fun q => ?_⟩
    · have hlookup : (flatApply t (.insert k v)).items.lookup k' = _ := Map.lookup_insert_ite _ _ _ _
      have hnone := hfree.1
      rw [hlookup, update_apply]
      grind
    · grind [flatApply, leaves_insert, leaves]
  | @updated k v old p hold =>
    have hlookup := (h.items k old p).mpr hold
    have hflat : flatApply t (.update k v) = ⟨t.leaves, t.items.insert k (v, p)⟩ := by
      simp only [flatApply, hlookup]
    rw [hflat]
    refine ⟨fun k' v' p' => ?_, fun q => ?_⟩
    · rw [Map.lookup_insert_ite, update_apply]
      grind
    · grind [leaves]
  | @notUpdated k v hnone =>
    grind [flatApply]
  | @removed k v p hold =>
    have hlookup := (h.items k v p).mpr hold
    have hflat : flatApply t (.remove k : Op K V) = ⟨t.leaves.set p none, t.items.erase k⟩ := by
      simp [flatApply, FlatTree.remove, hlookup]
    rw [hflat]
    refine ⟨fun k' v' p' => ?_, fun q => ?_⟩
    · rw [Map.lookup_erase_ite, update_apply]
      grind
    · grind [leaves]
  | @notRemoved k hnone =>
    have hlookup : t.items.lookup k = none := by
      rw [eq_none_iff_forall_ne_some]
      exact fun e he => hnone e.2 e.1 ((h.items k e.1 e.2).mp he)
    grind [flatApply, FlatTree.remove]

end Slots.Flat

omit [DecidableEq K] [MerkleHasher Hash] in
/-- The root over a list of leaves is that over the array. -/
theorem subtreeRoot_eq (compress : Hash → Hash → Hash) (e : Hash) (leaf : K → Hash) (h : Nat)
    (ls : List (Option K)) :
    FlatTree.subtreeRoot compress e leaf h ls =
      root compress h fun i => (ls[i]?.join.map leaf).getD e := by
  induction h generalizing ls with
  | zero =>
    rw [FlatTree.subtreeRoot, root, List.head?_eq_getElem?]
  | succ h ih =>
    rw [FlatTree.subtreeRoot]
    split
    · rename_i hall
      rw [← Node.root_const]
      refine root_congr fun i _ => ?_
      cases hi : ls[i]? with
      | none => rfl
      | some x =>
        have hx := List.all_eq_true.mp hall x (List.mem_of_getElem? hi)
        rw [isNone_iff_eq_none.mp hx]
        rfl
    · rw [ih, ih, root]
      congr 1
      · grind [root_congr]
      · grind

variable {t : MerkleTree K V Hash} {ops : List (Op K V)} {events : List (Op K V × Answer V)}

theorem MerkleTree.InArray.run_flat {t' : MerkleTree K V Hash} {a : Slots K V}
    {flat : FlatTree K V} (h : t.InArray a) (hflat : a.Flat flat)
    (hrun : t.run ops = .ok (t', events)) (hfresh : Op.Along Op.Fresh t.items.keys ops) :
    ∃ a', t'.InArray a' ∧ a'.Flat (ops.foldl flatApply flat) := by
  induction ops generalizing t a flat events with
  | nil =>
    cases hrun
    exact ⟨a, h, hflat⟩
  | cons op ops ih =>
    obtain ⟨t₁, answer, rest, happly, hrest, -⟩ := run_cons hrun
    have hstep := h.ok.step happly
    obtain ⟨a₁, harray, h₁⟩ := h.step hstep hfresh.1
    refine ih h₁ (hflat.step harray ?_) hrest (hstep.keys ▸ hfresh.2)
    rintro k v rfl
    rw [eq_none_iff_forall_ne_some]
    intro e he
    have hlookup := (h.items k e.1 e.2).mpr ((hflat.items k e.1 e.2).mp he)
    exact hfresh.1 (mem_keys.mpr (mem_of_lookup_eq_some hlookup))

/-- **The flat store is the specification of the store with the keys as leaves.** -/
theorem root_eq_flat (leafOf : K → Hash) (hleaf : ∀ k (v : V), leaf k v = leafOf k)
    (hrun : MerkleTree.new.run ops = .ok (t, events)) (hfresh : Op.Along Op.Fresh ∅ ops) :
    (ops.foldl flatApply .empty).items = t.items ∧
      t.root = .ok ((ops.foldl flatApply .empty).root MerkleHasher.compress MerkleHasher.emptyValue
        leafOf) := by
  have hnew : (MerkleTree.new : MerkleTree K V Hash).InArray Slots.empty := MerkleTree.inArray_new
  have hempty : (Slots.empty : Slots K V).Flat .empty :=
    ⟨fun k v p => ⟨fun h => by simp [FlatTree.empty] at h, nofun⟩, fun p => rfl⟩
  obtain ⟨a, h, hflat⟩ := hnew.run_flat hempty hrun hfresh
  refine ⟨ext_lookup fun k => Option.ext fun e => ?_, ?_⟩
  · exact (hflat.items k e.1 e.2).trans (h.items k e.1 e.2).symm
  · rw [h.shows.root, FlatTree.root, subtreeRoot_eq]
    congr 2
    grind [Slots.leaves, Slots.Flat.leaves]

theorem root_eq_flat_reused :
    letI := MerkleHasher.plain
    letI : LeafExtractor Nat Nat Nat := ⟨fun key _ => key⟩
    let ops : List (Op Nat Nat) := [.insert 1 10, .insert 2 20, .remove 1, .insert 3 30]
    ∃ (t : MerkleTree Nat Nat Nat) (events : List (Op Nat Nat × Answer Nat)),
      MerkleTree.new.run ops = .ok (t, events) ∧ (ops.foldl flatApply .empty).items = t.items ∧
        t.items.lookup 3 = some (30, 0) := by
  let _ := MerkleHasher.plain
  let _ : LeafExtractor Nat Nat Nat := ⟨fun key _ => key⟩
  intro ops
  obtain ⟨⟨t, events⟩, hrun, hthird⟩ := exists_ok
    (x := (MerkleTree.new : MerkleTree Nat Nat Nat).run ops)
    (·.1.items.lookup 3 = some (30, 0)) (by decide +kernel)
  exact ⟨t, events, hrun, (root_eq_flat id (fun _ _ => rfl) hrun (by decide)).1, hthird⟩

end Logos.Merkle
