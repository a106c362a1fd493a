import LogosChain.Merkle.FlatArray

/-!
# Recovered trees

A store is saved as its items with their positions (`tryFrom`); a dynamic tree is saved node by
node, and is checked and built again from the leaves up (`deserialize`). So a store comes back as it
was, unless an insertion under a key that was there left a leaf of no item.
-/

namespace Logos.Merkle

open Base Map LeafExtractor DynamicMerkleTree List

/-! ## Deserialized nodes -/

section

variable {Hash : Type} [MerkleHasher Hash]

/-- A node that is read is refused, or it is rebuilt as a canonical node. -/
theorem Node.rebuildAndValidate_cases (raw : Node Hash) :
    (∃ e, raw.rebuildAndValidate = .error (.error e)) ∨
      ∃ n h, raw.rebuildAndValidate = .ok n ∧ h ≤ treeHeightExceptRoot ∧ n.Canonical h := by
  induction raw with
  | empty height =>
    by_cases hheight : treeHeightExceptRoot < height
    · exact .inl ⟨_, error_bind (failIf_error.mpr ⟨hheight, rfl⟩)⟩
    · exact .inr ⟨_, height, ok_bind (a := ()) (failIf_ok.mpr hheight) rfl, by omega, .empty height⟩
  | leaf value => exact .inr ⟨_, 0, rfl, by omega, .leaf value⟩
  | inner left right value r l height ihl ihr =>
    rcases ihl with ⟨e, hl⟩ | ⟨left', k, hl, hk, hlc⟩
    · exact .inl ⟨e, error_bind hl⟩
    rw [rebuildAndValidate, bind_of_ok hl]
    rcases ihr with ⟨e, hr⟩ | ⟨right', k', hr, -, hrc⟩
    · exact .inl ⟨e, error_bind hr⟩
    rw [bind_of_ok hr]
    by_cases hheights : left'.height ≠ right'.height
    · grind [error_bind, failIf_error]
    rw [bind_of_ok (a := ()) (failIf_ok.mpr hheights)]
    -- the children are canonical nodes of one height
    rw [not_not, hlc.height_eq, hrc.height_eq] at hheights
    subst hheights
    obtain ⟨n, hn, hcanonical, -⟩ := hlc.newInner hrc hk
    rw [bind_of_ok (mapError_ok.mpr hn)]
    by_cases hheight : treeHeightExceptRoot < n.height
    · grind [error_bind, failIf_error]
    · refine .inr ⟨n, k + 1, ok_bind (a := ()) (failIf_ok.mpr hheight) rfl, ?_, hcanonical⟩
      rw [hcanonical.height_eq] at hheight
      omega

theorem DynamicMerkleTree.ok_of_deserialize {raw : Node Hash} {t : DynamicMerkleTree Hash}
    (h : deserialize raw = .ok t) : t.Ok := by
  obtain ⟨root, hroot, h⟩ := bind_ok h
  obtain ⟨_, hshape, h⟩ := bind_ok h
  cases h
  rcases raw.rebuildAndValidate_cases with ⟨e, he⟩ | ⟨n, height, hn, -, hcanonical⟩
  · rw [he] at hroot
    cases hroot
  · rw [hn] at hroot
    cases hroot
    have hheight := failIf_ok.mp hshape
    rw [not_or, not_not, hcanonical.height_eq] at hheight
    rw [hheight.1] at hcanonical
    exact hcanonical

theorem DynamicMerkleTree.deserialize_no_panic (raw : Node Hash) (p : Panic) :
    deserialize raw ≠ .error (.panic p) := by
  intro h
  rcases bind_error h with h | ⟨root, -, h⟩
  · rcases raw.rebuildAndValidate_cases with ⟨e, he⟩ | ⟨n, height, hn, -⟩
    · rw [he] at h
      cases h
    · rw [hn] at h
      cases h
  · rcases bind_error h with h | ⟨_, -, h⟩
    · cases (failIf_error.mp h).2
    · cases h

/-! ## The builder -/

namespace DynamicMerkleTree

/-- `n` is the subtree from a position on, with the leaves of a list. -/
def Built (h start : Nat) (items : List (Nat × Hash)) (n : Node Hash) : Prop :=
  n.Canonical h ∧ ∀ i < 2 ^ h, ∀ v, n.get i = some v ↔ (start + i, v) ∈ items

variable {h start : Nat} {items : List (Nat × Hash)}

omit [MerkleHasher Hash] in
theorem le_of_nextBelow (hsorted : items.Pairwise fun a b => a.1 < b.1) {bound : Nat}
    (hnext : nextBelow items bound = false) : ∀ e ∈ items, bound ≤ e.1 := by
  cases items with
  | nil => nofun
  | cons e items =>
    grind [nextBelow, rel_of_pairwise_cons]

/-- The part of the builder for one half: it builds a subtree if the next item is in it. -/
theorem build_half (hsorted : items.Pairwise fun a b => a.1 < b.1)
    (hbuild : nextBelow items (start + 2 ^ h) = true →
      ∃ n, buildSparseSubtree h start items = .ok (n, items.filter (start + 2 ^ h ≤ ·.1)) ∧
        Built h start items n) :
    ∃ n, (if nextBelow items (start + 2 ^ h) then buildSparseSubtree h start items
        else .ok (.empty h, items)) = .ok (n, items.filter (start + 2 ^ h ≤ ·.1)) ∧
      Built h start items n := by
  cases hnext : nextBelow items (start + 2 ^ h) with
  | true => exact hbuild hnext
  | false =>
    have hle := le_of_nextBelow hsorted hnext
    refine ⟨.empty h, ?_, .empty h, fun i hi v => ⟨nofun, fun hmem => ?_⟩⟩
    · rw [filter_eq_self.mpr fun e he => decide_eq_true (hle e he)]
      rfl
    · have : start + 2 ^ h ≤ start + i := hle _ hmem
      omega

/-- The builder takes the items of the subtree. -/
theorem build_spec (hh : h ≤ treeHeightExceptRoot) (hsorted : items.Pairwise fun a b => a.1 < b.1)
    (hstart : ∀ e ∈ items, start ≤ e.1) (hnext : nextBelow items (start + 2 ^ h) = true) :
    ∃ n, buildSparseSubtree h start items = .ok (n, items.filter (start + 2 ^ h ≤ ·.1)) ∧
      Built h start items n := by
  induction h generalizing start items with
  | zero =>
    cases items with
    | nil => cases hnext
    | cons e items =>
      obtain ⟨position, value⟩ := e
      obtain rfl : position = start := by grind [mem_cons_self, nextBelow]
      have hlater : ∀ e ∈ items, position < e.1 := fun e he => rel_of_pairwise_cons hsorted he
      refine ⟨.leaf value, ?_, .leaf value, fun i hi v => ?_⟩
      · have hrest : ((position, value) :: items).filter (position + 2 ^ 0 ≤ ·.1) = items := by
          rw [filter_cons_of_neg (by simp)]
          exact filter_eq_self.mpr fun e he => decide_eq_true (hlater e he)
        rw [hrest]
        exact ok_bind (a := ()) (failIf_ok.mpr (by simp)) rfl
      · grind [Node.get]
  | succ h ih =>
    have hmid : start + 2 ^ (h + 1) / 2 = start + 2 ^ h := by omega
    have hend : start + 2 ^ (h + 1) = start + 2 ^ h + 2 ^ h := by omega
    obtain ⟨left, hleft, hl, hgetl⟩ := build_half hsorted (ih (by omega) hsorted hstart)
    -- the right half is built from what is left
    have hsorted' := hsorted.filter (start + 2 ^ h ≤ ·.1)
    have hstart' : ∀ e ∈ items.filter (start + 2 ^ h ≤ ·.1), start + 2 ^ h ≤ e.1 := fun e he =>
      of_decide_eq_true (mem_filter.mp he).2
    obtain ⟨right, hright, hr, hgetr⟩ :=
      build_half hsorted' (ih (by omega) hsorted' hstart')
    obtain ⟨n, hn, hcanonical, hget⟩ := hl.newInner hr (by omega)
    refine ⟨n, ?_, hcanonical, fun i hi v => ?_⟩
    · cases items with
      | nil => cases hnext
      | cons e items =>
        obtain ⟨position, value⟩ := e
        have hbounds : ¬ ¬ (start ≤ position ∧ position - start < 2 ^ (h + 1)) := by
          have h1 := hstart _ mem_cons_self
          have h2 : position < start + 2 ^ (h + 1) := by simpa [nextBelow] using hnext
          exact not_not.mpr ⟨h1, by omega⟩
        rw [buildSparseSubtree, hmid, hend]
        refine ok_bind (a := ()) (failIf_ok.mpr hbounds) (ok_bind hleft (ok_bind hright
          (ok_bind hn ?_)))
        have hrest : ((((position, value) :: items).filter (start + 2 ^ h ≤ ·.1)).filter
            (start + 2 ^ h + 2 ^ h ≤ ·.1)) =
              ((position, value) :: items).filter (start + 2 ^ h + 2 ^ h ≤ ·.1) := by
          rw [filter_filter]
          refine filter_congr fun e _ => ?_
          grind
        rw [hrest]
        rfl
    · rw [hget]
      by_cases hlt : i < 2 ^ h
      · rw [ArrayTree.join_left _ _ hlt]
        exact hgetl i hlt v
      · have hge := Nat.not_lt.mp hlt
        rw [ArrayTree.join_right _ _ hge, hgetr _ (by omega), mem_filter]
        have hpos : start + 2 ^ h + (i - 2 ^ h) = start + i := by omega
        rw [hpos]
        exact and_iff_left (decide_eq_true (by omega : start + 2 ^ h ≤ start + i))

theorem fromSortedItems_ok (hsorted : items.Pairwise fun a b => a.1 < b.1)
    (hbound : ∀ e ∈ items, e.1 < 2 ^ treeHeightExceptRoot) :
    ∃ t, fromSortedItems items = .ok t ∧ t.Ok ∧ ∀ p v, t.get p = some v ↔ (p, v) ∈ items := by
  have hnone : items.filter (0 + 2 ^ treeHeightExceptRoot ≤ ·.1) = [] := by
    refine filter_eq_nil_iff.mpr fun e he => ?_
    have := hbound e he
    simp only [decide_eq_true_eq]
    omega
  obtain ⟨n, hn, hcanonical, hget⟩ : ∃ n, buildSparseSubtree treeHeightExceptRoot 0 items =
      .ok (n, items.filter (0 + 2 ^ treeHeightExceptRoot ≤ ·.1)) ∧
        Built treeHeightExceptRoot 0 items n := by
    cases items with
    | nil => exact ⟨.empty _, rfl, .empty _, fun i _ v => ⟨nofun, nofun⟩⟩
    | cons e items =>
      refine build_spec le_rfl hsorted (fun e _ => Nat.zero_le _) ?_
      grind [nextBelow]
  rw [hnone] at hn
  refine ⟨⟨n⟩, ok_bind hn (ok_bind (a := ()) (failIf_ok.mpr (not_not.mpr rfl)) rfl), hcanonical,
    fun p v => ?_⟩
  by_cases hp : p < 2 ^ treeHeightExceptRoot
  · have := hget p hp v
    rwa [Nat.zero_add] at this
  · have hout : n.get p = none := hcanonical.get_of_le (Nat.not_lt.mp hp)
    refine ⟨fun hv => ?_, fun hmem => absurd (hbound _ hmem) hp⟩
    rw [get, hout] at hv
    cases hv

end DynamicMerkleTree

end

/-! ## Compressed stores -/

variable {K V Hash : Type} [DecidableEq K]

/-- The items of a store by their positions. -/
structure CompressedMerkleTree (K V : Type) where
  items : Map Nat (K × V)

/-- The compressed form of a store, in some order. -/
def MerkleTree.compressed (t : MerkleTree K V Hash) (order : t.items.Iteration) :
    CompressedMerkleTree K V :=
  ⟨order.entries.foldl (fun items e => items.insert e.2.2 (e.1, e.2.1)) ∅⟩

/-- Why a saved store is refused. -/
inductive RecoveryError where
  /-- "compressed Merkle tree position {position} exceeds capacity {capacity}" -/
  | positionOutOfBounds (position capacity : Nat)
  /-- "compressed Merkle tree contains a duplicate key at position {position}" -/
  | duplicateKey (position : Nat)
deriving DecidableEq, Repr

/-- The checks of the entries, with the keys seen so far. -/
def checkEntries (capacity : Nat) : Finset K → List (Nat × K × V) → Except RecoveryError Unit
  | _, [] => .ok ()
  | keys, (position, key, _) :: entries => do
    failIf (capacity ≤ position) (.positionOutOfBounds position capacity)
    failIf (key ∈ keys) (.duplicateKey position)
    checkEntries capacity (insert key keys) entries

/-- The store from its compressed form, by position. -/
def MerkleTree.tryFrom [MerkleHasher Hash] [LeafExtractor K V Hash]
    (compressed : CompressedMerkleTree K V) :
    Except (Failure RecoveryError) (MerkleTree K V Hash) := do
  (checkEntries (2 ^ treeHeightExceptRoot) ∅ compressed.items.toList).mapError .error
  let merkle ← (fromSortedItems (compressed.items.toList.map fun e =>
    (e.1, leaf e.2.1 e.2.2))).mapError .panic
  return ⟨merkle, compressed.items.toList.foldl (fun items e => items.insert e.2.1 (e.2.2, e.1)) ∅⟩

/-- The positions are in range and the keys are distinct. -/
structure CompressedMerkleTree.Valid (c : CompressedMerkleTree K V) : Prop where
  inRange : ∀ p e, c.items.lookup p = some e → p < 2 ^ treeHeightExceptRoot
  distinct : ∀ p p' k v v', c.items.lookup p = some (k, v) → c.items.lookup p' = some (k, v') → p = p'

/-- The checks pass for new keys at positions in range. -/
theorem checkEntries_ok {capacity : Nat} {entries : List (Nat × K × V)} {keys : Finset K} {u : Unit} :
    checkEntries capacity keys entries = .ok u ↔ (∀ e ∈ entries, e.1 < capacity) ∧
      (entries.map (·.2.1)).Nodup ∧ ∀ e ∈ entries, e.2.1 ∉ keys := by
  induction entries generalizing keys with
  | nil => simp [checkEntries]
  | cons e entries ih =>
    obtain ⟨position, key, item⟩ := e
    rw [checkEntries]
    constructor
    · intro h
      obtain ⟨_, hposition, h⟩ := bind_ok h
      obtain ⟨_, hkey, h⟩ := bind_ok h
      grind [failIf_ok]
    · rintro ⟨hrange, hnodup, hnew⟩
      rw [forall_mem_cons] at hrange hnew
      grind [ok_bind, failIf_ok]

theorem CompressedMerkleTree.valid_iff (c : CompressedMerkleTree K V) :
    checkEntries (2 ^ treeHeightExceptRoot) ∅ c.items.toList = .ok () ↔ c.Valid := by
  rw [checkEntries_ok]
  constructor
  · rintro ⟨hrange, hnodup, -⟩
    refine ⟨fun p e h => hrange (p, e) (mem_toList.mpr h), fun p p' k v v' h h' => ?_⟩
    have heq := inj_on_of_nodup_map hnodup (mem_toList.mpr h : (p, k, v) ∈ c.items.toList)
      (mem_toList.mpr h' : (p', k, v') ∈ c.items.toList) rfl
    exact congrArg Prod.fst heq
  · intro h
    refine ⟨fun e he => h.inRange e.1 e.2 (mem_toList.mp he), ?_, fun _ _ => Finset.notMem_empty _⟩
    refine List.Nodup.map_on (fun x hx y hy heq => ?_) (List.Nodup.of_map _ (nodup_toList _))
    grind [Valid.distinct, mem_toList]

section

variable [MerkleHasher Hash] [LeafExtractor K V Hash]

namespace MerkleTree

/-- A valid compressed form is accepted. -/
theorem tryFrom_ok {c : CompressedMerkleTree K V} (hc : c.Valid) :
    ∃ t : MerkleTree K V Hash, tryFrom c = .ok t ∧ t.merkle.Ok ∧
      (∀ p x, t.merkle.get p = some x ↔
        ∃ k v, c.items.lookup p = some (k, v) ∧ leaf k v = x) ∧
      ∀ k v p, t.items.lookup k = some (v, p) ↔ c.items.lookup p = some (k, v) := by
  have hsorted : (c.items.toList.map fun e =>
      (e.1, (leaf e.2.1 e.2.2 : Hash))).Pairwise fun a b => a.1 < b.1 :=
    pairwise_map.mpr (pairwise_toList c.items)
  have hbound : ∀ e ∈ c.items.toList.map fun e => (e.1, (leaf e.2.1 e.2.2 : Hash)),
      e.1 < 2 ^ treeHeightExceptRoot := by
    intro e he
    obtain ⟨x, hx, rfl⟩ := mem_map.mp he
    exact hc.inRange x.1 x.2 (mem_toList.mp hx)
  obtain ⟨merkle, hbuild, hok, hget⟩ := fromSortedItems_ok hsorted hbound
  refine ⟨⟨merkle, _⟩, ok_bind (mapError_ok.mpr (c.valid_iff.mpr hc))
    (ok_bind (mapError_ok.mpr hbuild) rfl), hok, fun p x => ?_, fun k v p => ?_⟩
  · rw [hget, mem_map]
    simp [mem_toList]
  · -- distinct keys have one entry each
    have hsame : ∀ a ∈ c.items.toList, ∀ b ∈ c.items.toList, a.2.1 = b.2.1 →
        (a.2.2, a.1) = (b.2.2, b.1) := by
      grind [CompressedMerkleTree.Valid.distinct, mem_toList]
    rw [lookup_foldl_insert_of_eq hsame]
    simp [mem_toList]

theorem tryFrom_error {c : CompressedMerkleTree K V} (hc : ¬ c.Valid) :
    ∃ e, (tryFrom c : Except _ (MerkleTree K V Hash)) = .error (.error e) := by
  cases hcheck : checkEntries (2 ^ treeHeightExceptRoot) ∅ c.items.toList with
  | ok u => exact absurd (c.valid_iff.mp hcheck) hc
  | error e => exact ⟨e, error_bind (mapError_error.mpr ⟨e, hcheck, rfl⟩)⟩

variable {t : MerkleTree K V Hash}

variable (ht : t.Ok) (order : t.items.Iteration)
include ht order

theorem Ok.lookup_compressed (p : Nat) (k : K) (v : V) :
    (t.compressed order).items.lookup p = some (k, v) ↔ t.items.lookup k = some (v, p) := by
  have hsame : ∀ a ∈ order.entries, ∀ b ∈ order.entries, a.2.2 = b.2.2 →
      (a.1, a.2.1) = (b.1, b.2.1) := by grind [Map.Iteration.mem_iff, unique]
  rw [compressed, lookup_foldl_insert_of_eq hsame, ← order.mem_iff]
  grind

theorem Ok.valid_compressed : (t.compressed order).Valid where
  inRange p e h :=
    ht.merkle.lt_of_get (ht.leaf e.1 e.2 p ((ht.lookup_compressed order p e.1 e.2).mp h))
  distinct p p' k v v' h h' := by grind [lookup_compressed]

/-- A store comes back as it was exactly if each leaf of its tree is the leaf of an item. -/
theorem Ok.recovered_iff : tryFrom (t.compressed order) = .ok t ↔ t.NoOrphans := by
  obtain ⟨t', htry, hok, hget, hitems⟩ : ∃ t' : MerkleTree K V Hash, _ :=
    tryFrom_ok (ht.valid_compressed order)
  simp only [ht.lookup_compressed] at hget hitems
  rw [htry]
  constructor
  · intro heq p hp
    cases heq
    obtain ⟨x, hx⟩ := Option.ne_none_iff_exists'.mp hp
    grind
  · intro hno
    have hsame : t'.items = t.items :=
      Finmap.ext_lookup fun k => Option.ext fun e => hitems k e.1 e.2
    have hleaves : ∀ p, t'.merkle.get p = t.merkle.get p := by
      intro p
      ext x
      rw [hget]
      constructor
      · grind [leaf]
      · intro hx
        obtain ⟨k, v, hlookup⟩ := hno p (by rw [hx]; exact Option.some_ne_none x)
        grind [leaf]
    have hroot : t'.merkle.root = t.merkle.root := hok.ext ht.merkle fun p _ => hleaves p
    obtain ⟨⟨root⟩, items⟩ := t
    obtain ⟨⟨root'⟩, items'⟩ := t'
    subst hsame hroot
    rfl

end MerkleTree

/-- **Recovered trees.** A store comes back as it was exactly if no insertion was under a key that
was there. A dynamic tree that is read is canonical, whatever its nodes carried. -/
theorem recovered_trees :
    (∀ (ops : List (Op K V)) (t : MerkleTree K V Hash) events (order : t.items.Iteration),
      MerkleTree.new.run ops = .ok (t, events) →
        (MerkleTree.tryFrom (t.compressed order) = .ok t ↔ Op.Along Op.Fresh ∅ ops)) ∧
    (∀ c : CompressedMerkleTree K V,
      ((∃ t : MerkleTree K V Hash, MerkleTree.tryFrom c = .ok t) ↔ c.Valid) ∧
      ∀ p, (MerkleTree.tryFrom c : Except _ (MerkleTree K V Hash)) ≠ .error (.panic p)) ∧
    ∀ raw : Node Hash, (∀ t, deserialize raw = .ok t → t.Ok) ∧
      ∀ p, deserialize raw ≠ .error (.panic p) := by
  refine ⟨fun ops t events order hrun => ?_, fun c => ?_, fun raw => ⟨fun t ht => ?_, ?_⟩⟩
  · have hnew : (MerkleTree.new : MerkleTree K V Hash).NoOrphans := fun p hp => absurd rfl hp
    obtain ⟨hok, hiff⟩ := MerkleTree.ok_new.run hrun
    rw [hok.recovered_iff order, hiff]
    exact and_iff_right hnew
  · by_cases hc : c.Valid
    · grind [MerkleTree.tryFrom_ok]
    · obtain ⟨e, he⟩ : ∃ e, (MerkleTree.tryFrom c : Except _ (MerkleTree K V Hash)) = _ :=
        MerkleTree.tryFrom_error hc
      grind
  · exact ok_of_deserialize ht
  · exact deserialize_no_panic raw

end

theorem recovered_after_removal :
    letI := MerkleHasher.plain
    letI := plain
    ∃ (t : MerkleTree Nat Nat Nat) (events : List (Op Nat Nat × Answer Nat)),
      MerkleTree.new.run [.insert 1 10, .insert 2 20, .remove 1] = .ok (t, events) ∧ t.size = 1 ∧
      MerkleTree.tryFrom (t.compressed (.ascending _)) = .ok t := by
  let _ := MerkleHasher.plain
  let _ := plain
  obtain ⟨⟨t, events⟩, hrun, hsize⟩ := exists_ok (x := (MerkleTree.new : MerkleTree Nat Nat Nat).run
    [.insert 1 10, .insert 2 20, .remove 1]) (fun r => r.1.size = 1) (by decide +kernel)
  obtain ⟨hruns, -⟩ := @recovered_trees Nat Nat Nat _ _ _
  exact ⟨t, events, hrun, hsize, (hruns _ t events _ hrun).mpr (by decide)⟩

/-- The second insertion under a key leaves a leaf that does not come back. -/
theorem not_recovered_after_overwrite :
    letI := MerkleHasher.plain
    letI := plain
    ∃ (t t' : MerkleTree Nat Nat Nat) (events : List (Op Nat Nat × Answer Nat)),
      MerkleTree.new.run [.insert 1 10, .insert 1 20] = .ok (t, events) ∧
      MerkleTree.tryFrom (t.compressed (.ascending _)) = .ok t' ∧
      t.size = 2 ∧ t'.size = 1 ∧ t.root ≠ t'.root := by
  let _ := MerkleHasher.plain
  let _ := plain
  obtain ⟨⟨t, events⟩, hrun, hsize, hrecovered⟩ :=
    exists_ok (x := (MerkleTree.new : MerkleTree Nat Nat Nat).run [.insert 1 10, .insert 1 20])
      (fun r => r.1.size = 2 ∧ (MerkleTree.tryFrom (r.1.compressed (.ascending _)) :
        Except _ (MerkleTree Nat Nat Nat)).toOption.any fun t' =>
          decide (t'.size = 1 ∧ r.1.root.toOption ≠ t'.root.toOption)) (by decide +kernel)
  obtain ⟨t', htry, hsize', hroot⟩ := exists_ok _ hrecovered
  grind

end Logos.Merkle
