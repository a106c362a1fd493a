import LogosChain.Base.ArrayTree
import LogosChain.Merkle.Dynamic

/-!
# Canonical nodes

In a canonical node two subtrees have the same height, no two empty subtrees are siblings, and an
inner node has the hash, the height and the sizes of its children. It is determined by the leaves at
its positions (`Canonical.ext`), so each function is described by what it does to the array of the
leaves.
-/

namespace Logos.Merkle

open Base ArrayTree MerkleHasher Function

variable {Hash : Type} [MerkleHasher Hash]

namespace Node

/-- The leaf at a position. -/
def get : Node Hash → Nat → Option Hash
  | .inner left right _ _ _ _, i =>
    if i < left.capacity then left.get i else right.get (i - left.capacity)
  | .empty _, _ => none
  | .leaf value, i => if i = 0 then some value else none

/-- A canonical node of a height. -/
inductive Canonical : Nat → Node Hash → Prop where
  | empty (h : Nat) : Canonical h (.empty h)
  | leaf (value : Hash) : Canonical 0 (.leaf value)
  | inner {h : Nat} {left right : Node Hash} {value : Hash} (hl : Canonical h left)
      (hr : Canonical h right) (hne : left ≠ .empty h ∨ right ≠ .empty h)
      (hv : hash left right = .ok value) :
      Canonical (h + 1) (.inner left right value right.size left.size (h + 1))

variable {h : Nat} {n n' left right : Node Hash}

namespace Canonical

theorem height_eq (hn : Canonical h n) : n.height = h := by
  cases hn <;> rfl

theorem capacity_eq (hn : Canonical h n) : n.capacity = 2 ^ h := by
  rw [capacity, hn.height_eq]

/-- The leaves of an inner node are those of its children. -/
theorem get_inner (hl : Canonical h left) (right : Node Hash) (value : Hash) (r l k : Nat) :
    get (.inner left right value r l k) = join h left.get right.get := by
  funext i
  rw [get, hl.capacity_eq]
  rfl

variable (hn : Canonical h n)
include hn

theorem get_of_le {i : Nat} (hi : 2 ^ h ≤ i) : n.get i = none := by
  induction hn generalizing i with
  | empty => rfl
  | leaf value => exact if_neg (by rw [pow_zero] at hi; omega)
  | @inner h left right value hl hr _ _ _ ihr =>
    rw [hl.get_inner, join_right _ _ (by omega)]
    exact ihr (by omega)

theorem eq_empty (hnone : ∀ i < 2 ^ h, n.get i = none) : n = .empty h := by
  induction hn with
  | empty => rfl
  | leaf value => exact absurd (hnone 0 (by simp)) (by simp [get])
  | @inner h left right value hl hr hne _ ihl ihr =>
    have hhalves : ∀ i < 2 ^ (h + 1), join h left.get right.get i =
        join h (fun _ => none) (fun _ => none) i := by
      intro i hi
      rw [← hl.get_inner right value right.size left.size (h + 1), hnone i hi]
      unfold join
      split <;> rfl
    obtain ⟨hleft, hright⟩ := forall_lt_join.mp hhalves
    grind

theorem ext (hn' : Canonical h n') (hget : ∀ i < 2 ^ h, n.get i = n'.get i) : n = n' := by
  induction hn generalizing n' with
  | empty h => exact (hn'.eq_empty fun i hi => (hget i hi).symm).symm
  | leaf value =>
    cases hn' with
    | empty => exact absurd (hget 0 (by simp)) (by simp [get])
    | leaf value' =>
      have := hget 0 (by simp)
      simpa [get] using this
  | @inner h left right value hl hr hne hv ihl ihr =>
    cases hn' with
    | empty =>
      exact (Canonical.inner hl hr hne hv).eq_empty hget
    | @inner _ left' right' value' hl' hr' hne' hv' =>
      rw [hl.get_inner, hl'.get_inner] at hget
      obtain ⟨hleft, hright⟩ := forall_lt_join.mp hget
      grind

theorem size_eq : n.size = Nat.count (fun i => (n.get i).isSome) (2 ^ h) := by
  induction hn with
  | empty h => simp [size, get]
  | leaf value => simp [size, get, Nat.count_one]
  | @inner h left right value hl hr _ _ ihl ihr =>
    rw [hl.get_inner, count_join (fun x : Option Hash => x.isSome), ← ihl, ← ihr]
    rfl

theorem get_ne_none_of_full (hfull : 2 ^ h ≤ n.size) {i : Nat}
    (hi : i < 2 ^ h) : n.get i ≠ none := by grind [Nat.count_le, Nat.count_iff_forall, size_eq]

end Canonical

/-! ## Values -/

omit [MerkleHasher Hash] in
theorem root_const (compress : Hash → Hash → Hash) (e : Hash) (h : Nat) :
    root compress h (fun _ => e) = FlatTree.emptySubtreeRoot compress e h := by
  induction h with
  | zero => rfl
  | succ h ih => rw [root, ih, FlatTree.emptySubtreeRoot]

/-- The root of the full tree over the leaves of a node. -/
def arrayRoot (h : Nat) (a : Nat → Option Hash) : Hash :=
  root compress h fun i => (a i).getD emptyValue

theorem arrayRoot_join (h : Nat) (a b : Nat → Option Hash) :
    arrayRoot (h + 1) (join h a b) = compress (arrayRoot h a) (arrayRoot h b) := by
  unfold arrayRoot
  rw [map_join (fun x : Option Hash => x.getD emptyValue)]
  exact root_join h _ _

/-- The value of a node is the root over its leaves. -/
theorem Canonical.value_eq (hn : Canonical h n) (hh : h ≤ treeHeightExceptRoot) :
    n.value = .ok (arrayRoot h n.get) := by
  induction hn with
  | empty h =>
    refine ok_bind (a := ()) (failIf_ok.mpr (by omega)) ?_
    exact congrArg Except.ok (root_const _ _ h).symm
  | leaf value => rfl
  | @inner h left right value hl hr _ hv ihl ihr =>
    have hhash : hash left right =
        .ok (compress (arrayRoot h left.get) (arrayRoot h right.get)) :=
      ok_bind (ihl (by omega)) (ok_bind (ihr (by omega)) rfl)
    rw [hv] at hhash
    rw [hl.get_inner, arrayRoot_join]
    exact hhash

/-! ## Joining two subtrees -/

/-- Canonical subtrees of one height are joined. -/
theorem Canonical.newInner (hl : Canonical h left) (hr : Canonical h right)
    (hh : h ≤ treeHeightExceptRoot) :
    ∃ n, newInner left right = .ok n ∧ Canonical (h + 1) n ∧ n.get = join h left.get right.get := by
  by_cases hempty : left = .empty h ∧ right = .empty h
  · obtain ⟨rfl, rfl⟩ := hempty
    refine ⟨.empty (h + 1), ok_bind (a := ()) (failIf_ok.mpr (not_not.mpr rfl)) rfl, .empty _, ?_⟩
    funext i
    unfold join
    split <;> rfl
  · have hhash : hash left right =
        .ok (compress (arrayRoot h left.get) (arrayRoot h right.get)) :=
      ok_bind (hl.value_eq hh) (ok_bind (hr.value_eq hh) rfl)
    have hheights : ¬ left.height ≠ right.height := by
      rw [hl.height_eq, hr.height_eq]
      exact not_not.mpr rfl
    have hne : left ≠ .empty h ∨ right ≠ .empty h := by grind
    have hinner : Node.newInner left right = .ok (.inner left right
        (compress (arrayRoot h left.get) (arrayRoot h right.get)) right.size left.size
        (left.height + 1)) := by
      unfold Node.newInner
      split
      · exact absurd ⟨congrArg Node.empty hl.height_eq, congrArg Node.empty hr.height_eq⟩ hempty
      · exact ok_bind (a := ()) (failIf_ok.mpr hheights) (ok_bind hhash rfl)
    rw [hl.height_eq] at hinner
    exact ⟨_, hinner, .inner hl hr hne hhash, hl.get_inner ..⟩

/-! ## The first free position -/

/-- A node that is not full has a first free position, and the sizes lead to it. -/
theorem Canonical.firstEmptyIndex (hn : Canonical h n) (hsize : n.size < 2 ^ h) :
    ∃ i, n.firstEmptyIndex = some i ∧ i < 2 ^ h ∧ ArrayTree.FirstFree n.get i := by
  induction hn with
  | empty h => exact ⟨0, rfl, Nat.two_pow_pos h, rfl, fun j hj => absurd hj (by omega)⟩
  | leaf value => exact absurd hsize (by simp [size])
  | @inner h left right value hl hr _ _ ihl ihr =>
    rw [Node.firstEmptyIndex, hl.capacity_eq, hr.capacity_eq, hl.get_inner]
    by_cases hleft : left.size < 2 ^ h
    · grind [ArrayTree.FirstFree.join_left]
    · -- the left half is full
      have hright : right.size < 2 ^ h := by
        have : left.size + right.size < 2 ^ (h + 1) := hsize
        omega
      grind [ArrayTree.FirstFree.join_right, get_ne_none_of_full]

/-! ## Changes at a position -/

/-- The call of `insertOrModify` writes `x` at the position. -/
def Writes (f : Node Hash → Except Panic (Node Hash)) (h : Nat) (n : Node Hash) (i : Nat)
    (x : Option Hash) : Prop :=
  ∃ n', insertOrModify f n i = .ok n' ∧ Canonical h n' ∧ n'.get = update n.get i x

variable {f : Node Hash → Except Panic (Node Hash)} {i : Nat} {x : Option Hash} {value : Hash}

theorem Writes.inner_left (hw : Writes f h left i x) (hl : Canonical h left) (hr : Canonical h right)
    (hh : h ≤ treeHeightExceptRoot) (hi : i < 2 ^ h) :
    Writes f (h + 1) (.inner left right value right.size left.size (h + 1)) i x := by
  obtain ⟨left', hleft', hl', hget⟩ := hw
  obtain ⟨n', hn', hcanonical, hget'⟩ := hl'.newInner hr hh
  refine ⟨n', ?_, hcanonical, ?_⟩
  · have hbound : ¬ capacity (.inner left right value right.size left.size (h + 1)) ≤ i := by
      change ¬ 2 ^ (h + 1) ≤ i
      omega
    rw [insertOrModify, hl.capacity_eq, if_pos hi]
    exact ok_bind (a := ()) (failIf_ok.mpr hbound) (ok_bind hleft' hn')
  · rw [hget', hget, hl.get_inner, update_join_left _ _ _ hi]

theorem Writes.inner_right (hw : Writes f h right (i - 2 ^ h) x) (hl : Canonical h left)
    (hh : h ≤ treeHeightExceptRoot) (hi : 2 ^ h ≤ i) (hlt : i < 2 ^ (h + 1)) :
    Writes f (h + 1) (.inner left right value right.size left.size (h + 1)) i x := by
  obtain ⟨right', hright', hr', hget⟩ := hw
  obtain ⟨n', hn', hcanonical, hget'⟩ := hl.newInner hr' hh
  refine ⟨n', ?_, hcanonical, ?_⟩
  · have hbound : ¬ capacity (.inner left right value right.size left.size (h + 1)) ≤ i := by
      change ¬ 2 ^ (h + 1) ≤ i
      omega
    rw [insertOrModify, hl.capacity_eq, if_neg (Nat.not_lt.mpr hi)]
    exact ok_bind (a := ()) (failIf_ok.mpr hbound) (ok_bind hright' hn')
  · rw [hget', hget, hl.get_inner, update_join_right _ _ _ hi]

/-- The leaf at an occupied position is replaced. -/
theorem Canonical.writes {old : Hash} {new : Node Hash} (hn : Canonical h n)
    (hh : h ≤ treeHeightExceptRoot) (hold : n.get i = some old) (hf : f (.leaf old) = .ok new)
    (hnew : Canonical 0 new) : Writes f h n i (new.get 0) := by
  induction hn generalizing i with
  | empty => cases hold
  | leaf value =>
    obtain ⟨rfl, rfl⟩ : i = 0 ∧ value = old := by grind [get]
    refine ⟨new, ok_bind (a := ()) (failIf_ok.mpr (not_not.mpr rfl)) hf, hnew, ?_⟩
    funext j
    by_cases hj : j = 0
    · rw [hj, update_self]
    · rw [update_of_ne hj, hnew.get_of_le (by rw [pow_zero]; omega)]
      exact (if_neg hj).symm
  | @inner h left right value hl hr hne hv ihl ihr =>
    rw [hl.get_inner] at hold
    grind [join_left, Writes.inner_left, get_of_le, join_right, Writes.inner_right]

theorem writes_empty (hh : h ≤ treeHeightExceptRoot) (hf : f (.empty 0) = .ok (.leaf value)) :
    Writes f h (.empty h) 0 (some value) := by
  change ∃ n', insertIntoEmpty f h 0 = .ok n' ∧ Canonical h n' ∧
    n'.get = update (fun _ => none) 0 (some value)
  induction h with
  | zero =>
    refine ⟨.leaf value, ok_bind (a := ()) (failIf_ok.mpr (not_not.mpr rfl)) hf, .leaf value, ?_⟩
    funext j
    unfold update get
    simp
  | succ h ih =>
    obtain ⟨left, hleft, hl, hget⟩ := ih (by omega)
    obtain ⟨n', hn', hcanonical, hget'⟩ := hl.newInner (.empty h) (by omega)
    refine ⟨n', ok_bind (a := ()) (failIf_ok.mpr (not_not.mpr rfl)) (ok_bind hleft hn'),
      hcanonical, ?_⟩
    rw [hget', hget, ← update_join_left _ _ _ (Nat.two_pow_pos h)]
    congr 1
    funext j
    unfold join
    split <;> rfl

section

variable (hn : Canonical h n) (hh : h ≤ treeHeightExceptRoot)
include hn hh

/-- At the first free position a leaf is put in; an empty subtree is expanded. -/
theorem Canonical.writes_firstFree (hfree : ArrayTree.FirstFree n.get i) (hi : i < 2 ^ h)
    (hf : ∀ k, f (.empty k) = .ok (.leaf value)) : Writes f h n i (some value) := by
  induction hn generalizing i with
  | empty h =>
    obtain rfl : i = 0 := hfree.unique ⟨rfl, fun j hj => absurd hj (by omega)⟩
    exact writes_empty hh (hf 0)
  | leaf value =>
    obtain rfl : i = 0 := by rw [pow_zero] at hi; omega
    cases hfree.1
  | @inner h left right value hl hr _ _ ihl ihr =>
    rw [hl.get_inner] at hfree
    by_cases hlt : i < 2 ^ h
    · refine (ihl (by omega) ⟨?_, fun j hj => ?_⟩ hlt).inner_left hl hr (by omega) hlt
      · rw [← hfree.1, join_left _ _ hlt]
      · have := hfree.2 j hj
        rwa [join_left _ _ (hj.trans hlt)] at this
    · have hge := Nat.not_lt.mp hlt
      refine (ihr (by omega) (i := i - 2 ^ h) ⟨?_, fun j hj => ?_⟩ (by omega)).inner_right hl
        (by omega) hge hi
      · rw [← hfree.1, join_right _ _ hge]
      · have := hfree.2 (2 ^ h + j) (by omega)
        rwa [join_add] at this

theorem Canonical.insertAt (hfree : ArrayTree.FirstFree n.get i) (hi : i < 2 ^ h) (value : Hash) :
    ∃ n', n.insertAt i value = .ok n' ∧ Canonical h n' ∧
      n'.get = update n.get i (some value) := by
  change Writes _ h n i (some value)
  exact hn.writes_firstFree hh hfree hi fun _ => rfl

theorem Canonical.removeAt {old : Hash} (hold : n.get i = some old) :
    ∃ n', n.removeAt i = .ok n' ∧ Canonical h n' ∧ n'.get = update n.get i none := by
  change Writes _ h n i (get (.empty 0) 0)
  exact hn.writes hh hold rfl (.empty 0)

theorem Canonical.updateAt {old : Hash} (hold : n.get i = some old) (value : Hash) :
    ∃ n', n.updateAt i value = .ok n' ∧ Canonical h n' ∧
      n'.get = update n.get i (some value) := by
  change Writes _ h n i (get (.leaf value) 0)
  exact hn.writes hh hold rfl (.leaf value)

end

/-! ## Paths -/

/-- The root that a path leads to from a leaf. -/
def pathRoot (value : Hash) (path : List (MerkleNode Hash)) : Hash :=
  path.foldl (fun current node =>
    match node with
    | .left sibling => compress sibling current
    | .right sibling => compress current sibling) value

/-- The path of a leaf has a node for each level and leads to the value of the node. -/
theorem Canonical.path (hn : Canonical h n) (hh : h ≤ treeHeightExceptRoot)
    (hget : n.get i = some value) :
    ∃ path, n.path i = .ok (some path) ∧ path.length = h ∧ pathRoot value path = arrayRoot h n.get := by
  induction hn generalizing i with
  | empty => cases hget
  | leaf value' =>
    refine ⟨[], rfl, rfl, ?_⟩
    rw [get] at hget
    split at hget
    · cases hget
      rfl
    · cases hget
  | @inner h left right value' hl hr hne hv ihl ihr =>
    have hlt : i < 2 ^ (h + 1) := by
      by_contra hno
      have hout := (Canonical.inner hl hr hne hv).get_of_le (Nat.not_lt.mp hno)
      rw [hget] at hout
      cases hout
    have hbound : ¬ capacity (.inner left right value' right.size left.size (h + 1)) ≤ i :=
      Nat.not_le.mpr hlt
    rw [hl.get_inner] at hget ⊢
    rw [arrayRoot_join, Node.path, hl.capacity_eq]
    by_cases hi : i < 2 ^ h
    · rw [join_left _ _ hi] at hget
      obtain ⟨path, hpath, hlength, hroot⟩ := ihl (by omega) hget
      refine ⟨path ++ [.right (arrayRoot h right.get)], ?_, by simp [hlength], ?_⟩
      · rw [if_pos hi]
        refine ok_bind (a := ()) (failIf_ok.mpr hbound) (ok_bind hpath ?_)
        rw [pushSibling, if_neg (by omega)]
        exact ok_bind (hr.value_eq (by omega)) rfl
      · grind [pathRoot]
    · rw [join_right _ _ (Nat.not_lt.mp hi)] at hget
      obtain ⟨path, hpath, hlength, hroot⟩ := ihr (by omega) hget
      refine ⟨path ++ [.left (arrayRoot h left.get)], ?_, by simp [hlength], ?_⟩
      · rw [if_neg hi]
        refine ok_bind (a := ()) (failIf_ok.mpr hbound) (ok_bind hpath ?_)
        rw [pushSibling, if_neg (by omega)]
        exact ok_bind (hl.value_eq (by omega)) rfl
      · grind [pathRoot]

end Node

/-! ## The tree -/

namespace DynamicMerkleTree

open Node

/-- A tree whose root is a canonical node of the full height. -/
def Ok (t : DynamicMerkleTree Hash) : Prop := t.root.Canonical treeHeightExceptRoot

def get (t : DynamicMerkleTree Hash) : Nat → Option Hash := t.root.get

variable {t : DynamicMerkleTree Hash} {i : Nat} {old : Hash}

theorem ok_new : (new : DynamicMerkleTree Hash).Ok := .empty _

variable (ht : t.Ok)
include ht

theorem Ok.lt_of_get (hget : t.get i = some old) : i < 2 ^ treeHeightExceptRoot := by
  by_contra hno
  have hnone : t.get i = none := ht.get_of_le (Nat.not_lt.mp hno)
  rw [hget] at hnone
  cases hnone

/-- A tree with room takes a leaf at its first free position. -/
theorem Ok.insert (hsize : t.size < 2 ^ treeHeightExceptRoot) (value : Hash) :
    ∃ t' i, t.insert value = .ok (t', i) ∧ t'.Ok ∧ i < 2 ^ treeHeightExceptRoot ∧
      ArrayTree.FirstFree t.get i ∧ t'.get = Function.update t.get i (some value) := by
  obtain ⟨i, hi, hlt, hfree⟩ := ht.firstEmptyIndex hsize
  obtain ⟨root, hroot, hcanonical, hget⟩ := ht.insertAt le_rfl hfree hlt value
  have hroom : ¬ t.root.capacity ≤ t.size := by
    rw [ht.capacity_eq]
    exact Nat.not_le.mpr hsize
  refine ⟨⟨root⟩, i, ?_, hcanonical, hlt, hfree, hget⟩
  exact ok_bind (a := ()) (failIf_ok.mpr hroom) (ok_bind (okOr_ok.mpr hi) (ok_bind hroot rfl))

theorem Ok.insert_full (hsize : 2 ^ treeHeightExceptRoot ≤ t.size) (value : Hash) :
    t.insert value = .error .maxCapacityReached := by
  have hfull : t.root.capacity ≤ t.size := by
    rw [ht.capacity_eq]
    exact hsize
  rw [DynamicMerkleTree.insert, failIf, if_pos hfull]
  rfl

theorem Ok.in_capacity (hget : t.get i = some old) : ¬ t.root.capacity ≤ i := by
  rw [ht.capacity_eq]
  exact Nat.not_le.mpr (ht.lt_of_get hget)

theorem Ok.remove (hget : t.get i = some old) :
    ∃ t', t.remove i = .ok t' ∧ t'.Ok ∧ t'.get = Function.update t.get i none := by
  obtain ⟨root, hroot, hcanonical, hget'⟩ := ht.removeAt le_rfl hget
  exact ⟨⟨root⟩, ok_bind (failIf_of_not (ht.in_capacity hget)) (ok_bind hroot rfl), hcanonical,
    hget'⟩

theorem Ok.update (hget : t.get i = some old) (value : Hash) :
    ∃ t', t.update i value = .ok t' ∧ t'.Ok ∧ t'.get = Function.update t.get i (some value) := by
  obtain ⟨root, hroot, hcanonical, hget'⟩ := ht.updateAt le_rfl hget value
  exact ⟨⟨root⟩, ok_bind (failIf_of_not (ht.in_capacity hget)) (ok_bind hroot rfl), hcanonical,
    hget'⟩

theorem Ok.rootHash : t.rootHash = .ok (arrayRoot treeHeightExceptRoot t.get) := by
  have hvalue := ht.value_eq le_rfl
  unfold DynamicMerkleTree.rootHash
  cases hroot : t.root with
  | inner =>
    rw [hroot] at hvalue
    exact hvalue.trans (by rw [get, hroot])
  | empty =>
    rw [hroot] at hvalue
    exact hvalue.trans (by rw [get, hroot])
  | leaf =>
    -- a leaf has height 0
    have hheight := ht.height_eq
    rw [hroot] at hheight
    cases hheight

theorem Ok.path (hget : t.get i = some old) :
    ∃ path, t.path i = .ok (some path) ∧ path.length = treeHeightExceptRoot ∧
      t.rootHash = .ok (pathRoot old path) := by
  obtain ⟨path, hpath, hlength, hroot⟩ := Canonical.path ht le_rfl hget
  refine ⟨path, ok_bind hpath ?_, hlength, ?_⟩
  · rw [Option.filter_some, if_pos (decide_eq_true hlength)]
    rfl
  · rw [ht.rootHash, hroot]
    rfl

theorem Ok.size_eq : t.size = Nat.count (fun i => (t.get i).isSome) (2 ^ treeHeightExceptRoot) :=
  Canonical.size_eq ht

end DynamicMerkleTree

end Logos.Merkle
