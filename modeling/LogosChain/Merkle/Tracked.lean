import LogosChain.Merkle.Range

/-!
# Tracked paths of a range (`mmr/path`)

A path is an inclusion proof of a leaf under the frontier root. `push_with_paths` pushes an element
and keeps the given paths up to date: the new leaf lies under the sibling of exactly one level of
each path, and that sibling is replaced.
-/

namespace Logos.Mmr

open Base Base.ArrayTree List Function

/-- A malformed or incompatible path (`MerklePathError`). -/
inductive MerklePathError where
  /-- "Item count {count} exceeds maximum of {max}" -/
  | siblingCountOutOfBounds (count max : Nat)
  /-- "invalid sibling count: expected {expected}, got {actual}" -/
  | invalidSiblingCount (expected actual : Nat)
  /-- "leaf index {leaf_index} is outside MMR with {leaf_count} leaves" -/
  | leafIndexOutOfRange (leafIndex leafCount : Nat)
deriving DecidableEq

/-- A failure of `push_with_paths` (`PushWithPathsError`). -/
inductive PushWithPathsError where
  | mmrFull
  | invalidTrackedPath (e : MerklePathError)
deriving DecidableEq

/-- The most siblings of a path (`MAX_MERKLE_PATH_SIBLINGS`). -/
def maxMerklePathSiblings : Nat := MerkleMountainRange.maxHeight - 1

/-- A proof of inclusion: `siblings[h - 1]` is the sibling at height `h`. -/
structure MerklePath (H : Type) where
  leafIndex : Nat
  siblings : List H
  bounded : siblings.length ≤ maxMerklePathSiblings
deriving DecidableEq

/-- Whether a leaf is in the left subtree at a height. -/
def isLeftChild (leaf height : Nat) : Prop := (leaf >>> (height - 1)) &&& 1 = 0

instance (leaf height : Nat) : Decidable (isLeftChild leaf height) :=
  inferInstanceAs (Decidable (_ = _))

/-- Whether two leaves are in sibling subtrees at a height. -/
def areSiblingsAt (a b height : Nat) : Prop := a >>> (height - 1) = (b >>> (height - 1)) ^^^ 1

instance (a b height : Nat) : Decidable (areSiblingsAt a b height) :=
  inferInstanceAs (Decidable (_ = _))

/-- The number of bits of a number. -/
def bitWidth (n : Nat) : Nat := if n = 0 then 0 else n.log2 + 1

/-- The height at which two leaves are siblings. -/
def siblingHeight (a b : Nat) : Nat := bitWidth (a ^^^ b)

variable {H : Type} (compress : H → H → H) (zero : H) (maxHeight : Nat)

namespace MerklePath

def tryNew (leafIndex : Nat) (siblings : List H) : Except MerklePathError (MerklePath H) :=
  if h : siblings.length ≤ maxMerklePathSiblings then .ok ⟨leafIndex, siblings, h⟩
  else .error (.siblingCountOutOfBounds siblings.length maxMerklePathSiblings)

/-- The path has a sibling for each height. -/
def validateForHeight (path : MerklePath H) : Except (Stop MerklePathError) Unit := do
  (assertAcceptableHeight maxHeight).mapError .panic
  failIf (path.siblings.length ≠ maxHeight - 1)
    (.error (.invalidSiblingCount (maxHeight - 1) path.siblings.length))

/-- The path is of a pushed leaf. -/
def validateLeafIndex (path : MerklePath H) (leafCount : Nat) :
    Except (Stop MerklePathError) Unit :=
  failIf (leafCount ≤ path.leafIndex) (.error (.leafIndexOutOfRange path.leafIndex leafCount))

/-- The root that the path leads to from a leaf. -/
def root (path : MerklePath H) (leaf : H) : H :=
  path.siblings.zipIdx.foldl (fun current s =>
    if isLeftChild path.leafIndex (s.2 + 1) then compress current s.1
    else compress s.1 current) leaf

/-- The path leads from the leaf to the root. -/
def verify [DecidableEq H] (path : MerklePath H) (leaf expectedRoot : H) : Bool :=
  decide (path.root compress leaf = expectedRoot)

/-- The assignment `path.siblings[index] = sibling`. -/
def setSibling (path : MerklePath H) (index : Nat) (sibling : H) : Except Panic (MerklePath H) :=
  if index < path.siblings.length then
    .ok ⟨path.leafIndex, path.siblings.set index sibling,
      length_set.trans_le path.bounded⟩
  else .error (.indexOutOfBounds index)

end MerklePath

/-- Updates paths at a merge of the peak `left` and the new `right`. -/
def updatePathsAtMerge (right left : MmrRoot H) (paths : List (MerklePath H))
    (newPath : MerklePath H) : Except Panic (List (MerklePath H) × MerklePath H) := do
  failIf (left.height ≠ right.height) (.mergeHeights left.height right.height)
  let paths ← paths.mapM fun path =>
    if areSiblingsAt newPath.leafIndex path.leafIndex right.height then
      path.setSibling (right.height - 1) right.root
    else .ok path
  let newPath ← newPath.setSibling (right.height - 1) left.root
  return (paths, newPath)

/-- The first loop of `update_paths_above_merge`. -/
def hashesAbove : Nat → Nat → H → List (MmrRoot H) → MerklePath H →
    Except Panic (List H × MerklePath H)
  | 0, _, _, _, newPath => .ok ([], newPath)
  | n + 1, height, subtreeHash, remainingPeaks, newPath =>
    if isLeftChild newPath.leafIndex height then do
      let empty ← emptySubtreeRoot compress zero height
      let newPath ← newPath.setSibling (height - 1) empty
      let (hashes, newPath) ←
        hashesAbove n (height + 1) (compress subtreeHash empty) remainingPeaks newPath
      return (subtreeHash :: hashes, newPath)
    else
      match remainingPeaks with
      | [] => .error .stackUnderflow
      | left :: remainingPeaks => do
        let newPath ← newPath.setSibling (height - 1) left.root
        let (hashes, newPath) ←
          hashesAbove n (height + 1) (compress left.root subtreeHash) remainingPeaks newPath
        return (subtreeHash :: hashes, newPath)

/-- Updates paths at the heights above the merges. -/
def updatePathsAboveMerge (mergedRoot : MmrRoot H) (remainingPeaks : List (MmrRoot H))
    (paths : List (MerklePath H)) (newPath : MerklePath H) :
    Except Panic (List (MerklePath H) × MerklePath H) := do
  let (hashes, newPath) ← hashesAbove compress zero (maxHeight - mergedRoot.height)
    mergedRoot.height mergedRoot.root remainingPeaks newPath
  let paths ← paths.mapM fun path =>
    let h := siblingHeight newPath.leafIndex path.leafIndex
    if mergedRoot.height ≤ h ∧ h < maxHeight then do
      let hash ← okOr hashes[h - mergedRoot.height]? (.indexOutOfBounds (h - mergedRoot.height))
      path.setSibling (h - 1) hash
    else .ok path
  return (paths, newPath)

/-- The loop of `push_with_paths`, with an update at each merge. -/
def mergeWithPaths : List (MmrRoot H) → MmrRoot H → List (MerklePath H) → MerklePath H →
    Except Panic (List (MmrRoot H) × MmrRoot H × List (MerklePath H) × MerklePath H)
  | [], last, paths, newPath => .ok ([], last, paths, newPath)
  | root :: roots, last, paths, newPath =>
    if last.height = root.height then do
      let (paths, newPath) ← updatePathsAtMerge last root paths newPath
      failIf (maxHeight < last.height + 1) .heightAboveMax
      mergeWithPaths roots ⟨compress root.root last.root, last.height + 1⟩ paths newPath
    else .ok (root :: roots, last, paths, newPath)

/-- The checks of `push_with_paths`. -/
def checkPaths (m : MerkleMountainRange H) (paths : List (MerklePath H)) :
    Except (Stop PushWithPathsError) Unit := do
  failIf (m.roots.head?.map (·.height) = some maxHeight) (.error .mmrFull)
  paths.forM fun path => (do
    path.validateForHeight maxHeight
    path.validateLeafIndex m.len : Except (Stop MerklePathError) Unit).mapError fun
      | .panic p => .panic p
      | .error e => .error (.invalidTrackedPath e)

/-- `push_with_paths` after its checks. -/
def pushUpdating (m : MerkleMountainRange H) (elem : H) (paths : List (MerklePath H)) :
    Except Panic ((MerkleMountainRange H × MerklePath H) × List (MerklePath H)) := do
  let empties ← (List.range (maxHeight - 1)).mapM fun h => emptySubtreeRoot compress zero (h + 1)
  let newPath ← (MerklePath.tryNew m.len empties).mapError fun _ => Panic.siblingBound
  let (roots, last, paths, newPath) ←
    mergeWithPaths compress maxHeight m.roots ⟨elem, 1⟩ paths newPath
  let (paths, newPath) ← updatePathsAboveMerge compress zero maxHeight last roots paths newPath
  return ((⟨last :: roots⟩, newPath), paths)

/-- Pushes an element and updates the paths, which come second. -/
def pushWithPaths (m : MerkleMountainRange H) (elem : H) (paths : List (MerklePath H)) :
    Except (Stop PushWithPathsError) (MerkleMountainRange H × MerklePath H) ×
      List (MerklePath H) :=
  match checkPaths maxHeight m paths with
  | .error e => (.error e, paths)
  | .ok () =>
    match pushUpdating compress zero maxHeight m elem paths with
    | .error p => (.error (.panic p), paths)
    | .ok (result, paths) => (.ok result, paths)

/-! ## Bits of positions -/

theorem isLeftChild_iff {leaf l : Nat} : isLeftChild leaf (l + 1) ↔ leaf / 2 ^ l % 2 = 0 := by
  unfold isLeftChild
  rw [Nat.add_sub_cancel, Nat.shiftRight_eq_div_pow, Nat.and_one_is_mod]

theorem areSiblingsAt_iff {a b l : Nat} :
    areSiblingsAt a b (l + 1) ↔ a / 2 ^ l = sibling (b / 2 ^ l) := by
  unfold areSiblingsAt
  rw [Nat.add_sub_cancel, Nat.shiftRight_eq_div_pow, Nat.shiftRight_eq_div_pow, sibling_eq_xor]

/-- Two leaves are siblings at one height, the one that `siblingHeight` computes. -/
theorem areSiblingsAt_iff_siblingHeight {a b l : Nat} (hab : a ≠ b) :
    areSiblingsAt a b (l + 1) ↔ siblingHeight a b = l + 1 := by
  have hne : a ^^^ b ≠ 0 := fun h => hab (Nat.xor_eq_zero_iff.mp h)
  have hxor : areSiblingsAt a b (l + 1) ↔ (a ^^^ b) / 2 ^ l = 1 := by
    unfold areSiblingsAt
    rw [Nat.add_sub_cancel, ← Nat.shiftRight_eq_div_pow, Nat.shiftRight_xor_distrib]
    constructor
    · intro h
      rw [h, Nat.xor_right_comm, Nat.xor_self, Nat.zero_xor]
    · intro h
      rw [← h, Nat.xor_comm (a >>> l), ← Nat.xor_assoc, Nat.xor_self, Nat.zero_xor]
  have hpos : 0 < 2 ^ l := Nat.two_pow_pos l
  rw [hxor, siblingHeight, bitWidth, if_neg hne, Nat.add_right_cancel_iff, Nat.log2_eq_iff hne,
    Nat.div_eq_iff hpos, Nat.pow_succ]
  omega

theorem siblingHeight_pos {a b : Nat} (hab : a ≠ b) : 1 ≤ siblingHeight a b := by
  have hne : a ^^^ b ≠ 0 := fun h => hab (Nat.xor_eq_zero_iff.mp h)
  rw [siblingHeight, bitWidth, if_neg hne]
  omega

variable {compress zero maxHeight}

theorem MerklePath.root_eq_climb (path : MerklePath H) (leaf : H) :
    path.root compress leaf = climb compress path.leafIndex leaf path.siblings := by
  have hfrom (siblings : List H) (l : Nat) (current : H) :
      (siblings.zipIdx l).foldl (fun current s =>
        if isLeftChild path.leafIndex (s.2 + 1) then compress current s.1
        else compress s.1 current) current =
      climb compress (path.leafIndex / 2 ^ l) current siblings := by
    induction siblings generalizing l current with
    | nil => rfl
    | cons s siblings ih =>
      rw [zipIdx_cons, foldl_cons, ih, climb, Nat.div_div_eq_div_mul, ← Nat.pow_succ]
      congr 1
      simp only [isLeftChild_iff, pairUp]
      split <;> rfl
  simpa [root] using hfrom path.siblings 0 leaf

theorem MerklePath.setSibling_ok {path : MerklePath H} {index : Nat} (x : H)
    (h : index < path.siblings.length) :
    path.setSibling index x = .ok ⟨path.leafIndex, path.siblings.set index x,
      length_set.trans_le path.bounded⟩ := if_pos h

/-! ## What happens to a path -/

section Retarget

variable (compress) (b : Nat → H) (n : Nat)

/-- A path with the sibling over the new leaf `n` replaced below `l`. -/
def retarget (l : Nat) (path : MerklePath H) : MerklePath H :=
  if siblingHeight n path.leafIndex ≤ l then
    ⟨path.leafIndex, path.siblings.set (siblingHeight n path.leafIndex - 1)
      (node compress b (siblingHeight n path.leafIndex - 1)
        (n / 2 ^ (siblingHeight n path.leafIndex - 1))), length_set.trans_le path.bounded⟩
  else path

variable {compress b n} {path : MerklePath H} {l : Nat}

theorem retarget_leafIndex : (retarget compress b n l path).leafIndex = path.leafIndex := by
  unfold retarget
  split <;> rfl

theorem retarget_length :
    (retarget compress b n l path).siblings.length = path.siblings.length := by
  unfold retarget
  split
  · exact length_set
  · rfl

variable (hne : path.leafIndex ≠ n)
include hne

theorem retarget_zero : retarget compress b n 0 path = path := by
  have := siblingHeight_pos hne.symm
  exact if_neg (by omega)

theorem retarget_merge (hl : l < path.siblings.length) :
    (if areSiblingsAt n (retarget compress b n l path).leafIndex (l + 1) then
      (retarget compress b n l path).setSibling l (node compress b l (n / 2 ^ l))
    else .ok (retarget compress b n l path)) = .ok (retarget compress b n (l + 1) path) := by
  rw [retarget_leafIndex]
  simp only [areSiblingsAt_iff_siblingHeight hne.symm]
  by_cases heq : siblingHeight n path.leafIndex = l + 1
  · have hbefore : retarget compress b n l path = path := if_neg (by omega)
    rw [if_pos heq, hbefore, MerklePath.setSibling_ok _ hl, retarget, if_pos heq.le]
    simp only [heq, Nat.add_sub_cancel]
  · rw [if_neg heq]
    unfold retarget
    by_cases hle : siblingHeight n path.leafIndex ≤ l
    · rw [if_pos hle, if_pos (by omega)]
    · rw [if_neg hle, if_neg (by omega)]

/-- The update of a path above the merges, from the hashes of the subtree with the new leaf. -/
theorem retarget_above {hashes : List H} (hl : l ≤ maxHeight - 1)
    (hlen : path.siblings.length = maxHeight - 1)
    (hhashes : ∀ j, l + j < maxHeight - 1 →
      hashes[j]? = some (node compress b (l + j) (n / 2 ^ (l + j)))) :
    (if l + 1 ≤ siblingHeight n (retarget compress b n l path).leafIndex ∧
        siblingHeight n (retarget compress b n l path).leafIndex < maxHeight then (do
      let hash ← okOr hashes[siblingHeight n (retarget compress b n l path).leafIndex - (l + 1)]?
        (Panic.indexOutOfBounds
          (siblingHeight n (retarget compress b n l path).leafIndex - (l + 1)))
      (retarget compress b n l path).setSibling
        (siblingHeight n (retarget compress b n l path).leafIndex - 1) hash)
    else .ok (retarget compress b n l path)) =
      .ok (retarget compress b n (maxHeight - 1) path) := by
  rw [retarget_leafIndex]
  by_cases hin : l + 1 ≤ siblingHeight n path.leafIndex ∧ siblingHeight n path.leafIndex < maxHeight
  · have hbefore : retarget compress b n l path = path := if_neg (by omega)
    have hhash := hhashes (siblingHeight n path.leafIndex - (l + 1)) (by omega)
    have hlevel : l + (siblingHeight n path.leafIndex - (l + 1)) =
        siblingHeight n path.leafIndex - 1 := by omega
    rw [if_pos hin, hbefore, bind_of_ok (okOr_ok.mpr hhash), MerklePath.setSibling_ok _ (by omega),
      retarget, if_pos (by omega)]
    simp only [hlevel]
  · have hpos := siblingHeight_pos hne.symm
    rw [if_neg hin]
    unfold retarget
    by_cases hle : siblingHeight n path.leafIndex ≤ l
    · rw [if_pos hle, if_pos (by omega)]
    · rw [if_neg hle, if_neg (by omega)]

end Retarget

/-! ## The path of the new element -/

section NewPath

variable (compress zero maxHeight) (b : Nat → H) (n : Nat)

/-- The siblings of the new leaf; those from level `l` on are empty. -/
def newSiblings (l : Nat) : List H :=
  (List.range (maxHeight - 1)).map fun j =>
    if j < l then node compress b j (sibling (n / 2 ^ j))
    else FlatTree.emptySubtreeRoot compress zero j

/-- The path of the new leaf after the levels below `l`. -/
def newPathAt (hmax : maxHeight - 1 ≤ maxMerklePathSiblings) (l : Nat) : MerklePath H :=
  ⟨n, newSiblings compress zero maxHeight b n l, by simpa [newSiblings] using hmax⟩

variable {compress zero maxHeight b n} {l : Nat}

theorem newSiblings_set :
    (newSiblings compress zero maxHeight b n l).set l (node compress b l (sibling (n / 2 ^ l))) =
      newSiblings compress zero maxHeight b n (l + 1) := by
  refine ext_getElem (by simp [newSiblings]) fun j hj _ => ?_
  grind [newSiblings]

theorem newPathAt_set (hmax : maxHeight - 1 ≤ maxMerklePathSiblings) (hl : l < maxHeight - 1)
    {x : H} (hx : x = node compress b l (sibling (n / 2 ^ l))) :
    (newPathAt compress zero maxHeight b n hmax l).setSibling l x =
      .ok (newPathAt compress zero maxHeight b n hmax (l + 1)) := by
  grind [MerklePath.setSibling_ok, newPathAt, newSiblings, newSiblings_set]

theorem newPathAt_trueSiblings (hmax : maxHeight - 1 ≤ maxMerklePathSiblings) :
    TrueSiblings compress b 0 n
      (newPathAt compress zero maxHeight b n hmax (maxHeight - 1)).siblings := by
  intro j hj
  grind [newPathAt, newSiblings]

end NewPath

/-! ## The loops -/

section Loops

variable {a b : Nat → H} {n l q : Nat} {elem : H} {roots : List (MmrRoot H)}
  {paths : List (MerklePath H)}

/-- The loop of `push_with_paths` does to the range what the loop of `push` does. -/
theorem mergePeaks_of_mergeWithPaths {roots' : List (MmrRoot H)} {last last' : MmrRoot H}
    {paths' : List (MerklePath H)} {newPath newPath' : MerklePath H}
    (h : mergeWithPaths compress maxHeight roots last paths newPath =
      .ok (roots', last', paths', newPath')) :
    mergePeaks compress maxHeight roots last = .ok (roots', last') := by
  induction roots generalizing last paths newPath with
  | nil => cases h; rfl
  | cons root roots ih =>
    rw [mergeWithPaths] at h
    rw [mergePeaks]
    split at h
    · obtain ⟨⟨paths₁, newPath₁⟩, -, h⟩ := bind_ok h
      obtain ⟨_, hassert, h⟩ := bind_ok h
      rw [if_pos ‹_›]
      exact ok_bind hassert (ih h)
    · cases h
      rw [if_neg ‹_›]

theorem updatePathsAtMerge_spec (zero : H) (hmax : maxHeight - 1 ≤ maxMerklePathSiblings)
    (hl : l < maxHeight - 1)
    (hpaths : ∀ p ∈ paths, p.leafIndex ≠ n ∧ p.siblings.length = maxHeight - 1) {left : H}
    (hleft : left = node compress b l (sibling (n / 2 ^ l))) :
    updatePathsAtMerge ⟨node compress b l (n / 2 ^ l), l + 1⟩ ⟨left, l + 1⟩
        (paths.map (retarget compress b n l)) (newPathAt compress zero maxHeight b n hmax l) =
      .ok (paths.map (retarget compress b n (l + 1)),
        newPathAt compress zero maxHeight b n hmax (l + 1)) := by
  refine ok_bind (a := ()) (failIf_ok.mpr (by simp)) ?_
  refine ok_bind (a := paths.map (retarget compress b n (l + 1))) ?_
    (ok_bind (newPathAt_set hmax hl hleft) rfl)
  rw [mapM_map]
  exact mapM_ok fun p hp => retarget_merge (hpaths p hp).1 ((hpaths p hp).2 ▸ hl)

theorem mergeWithPaths_spec (zero : H) (hmax : maxHeight - 1 ≤ maxMerklePathSiblings)
    (hlow : 1 ≤ maxHeight)
    (hpaths : ∀ p ∈ paths, p.leafIndex ≠ n ∧ p.siblings.length = maxHeight - 1)
    (hsame : ∀ i < n, a i = b i) (h : Peaks compress a l q roots) (hq : n / 2 ^ l = q)
    (hfit : (q + 1) * 2 ^ l ≤ 2 ^ (maxHeight - 1)) :
    ∃ j c roots', n / 2 ^ (l + j) = 2 * c ∧ l + j ≤ maxHeight - 1 ∧
      mergeWithPaths compress maxHeight roots ⟨node compress b l q, l + 1⟩
          (paths.map (retarget compress b n l)) (newPathAt compress zero maxHeight b n hmax l) =
        .ok (roots', ⟨node compress b (l + j) (2 * c), l + j + 1⟩,
          paths.map (retarget compress b n (l + j)),
          newPathAt compress zero maxHeight b n hmax (l + j)) ∧
      Peaks compress b (l + j + 1) c roots' := by
  have hbelow : q * 2 ^ l ≤ n := hq ▸ Nat.div_mul_le_self n (2 ^ l)
  have hl : l ≤ maxHeight - 1 := level_le hfit
  induction h with
  | nil l => exact ⟨0, 0, [], hq, hl, rfl, .nil _⟩
  | @even l q roots hp ih =>
    have hblocks : q * 2 ^ (l + 1) = 2 * q * 2 ^ l := by ring
    have hkeep : Peaks compress b (l + 1) q roots :=
      hp.congr fun i hi => hsame i (lt_of_lt_of_le (hblocks ▸ hi) hbelow)
    refine ⟨0, q, roots, hq, hl, ?_, hkeep⟩
    cases roots with
    | nil => rfl
    | cons r roots =>
      have hlt := hp.height_lt mem_cons_self
      exact if_neg (by simp only; omega)
  | @odd l q roots hp ih =>
    have hdouble : (q + 1) * 2 ^ (l + 1) = (2 * q + 1 + 1) * 2 ^ l := by ring
    have hblocks : (2 * q + 1) * 2 ^ l = q * 2 ^ (l + 1) + 2 ^ l := by ring
    have hlt : l + 1 ≤ maxHeight - 1 := level_le (hdouble ▸ hfit)
    have hleft : node compress a l (2 * q) = node compress b l (sibling (n / 2 ^ l)) := by
      grind [sibling_two_mul_add_one, node_congr]
    have hhalf : n / 2 ^ (l + 1) = q := by
      rw [Nat.pow_succ, ← Nat.div_div_eq_div_mul, hq]
      omega
    obtain ⟨j, c, roots', hc, hj, hrun, hpeaks⟩ := ih hhalf (hdouble ▸ hfit)
      (le_trans (hblocks ▸ Nat.le_add_right _ _) hbelow) hlt
    have hlevel : l + 1 + j = l + (j + 1) := by omega
    rw [hlevel] at hc hj hrun hpeaks
    refine ⟨j + 1, c, roots', hc, hj, ?_, hpeaks⟩
    have hupdate := updatePathsAtMerge_spec zero hmax hlt hpaths hleft
    rw [hq] at hupdate
    rw [mergeWithPaths, if_pos rfl]
    refine ok_bind hupdate (ok_bind (a := ()) (failIf_ok.mpr (by simp only; omega)) ?_)
    grind [sibling_two_mul_add_one, node_succ]

/-- The loop above the merges takes the peaks of the set bits of the number of blocks. -/
theorem hashesAbove_spec {k : Nat} (hmax : maxHeight - 1 ≤ maxMerklePathSiblings)
    (hb : ∀ i, n < i → b i = zero) (h : Peaks compress b l q roots) (hq : n / 2 ^ l = q)
    (hk : l + k = maxHeight - 1) :
    hashesAbove compress zero k (l + 1) (node compress b l q) roots
        (newPathAt compress zero maxHeight b n hmax l) =
      .ok ((List.range k).map fun j => node compress b (l + j) (n / 2 ^ (l + j)),
        newPathAt compress zero maxHeight b n hmax (maxHeight - 1)) := by
  induction k generalizing l q roots with
  | zero =>
    obtain rfl : l = maxHeight - 1 := by omega
    rfl
  | succ k ih =>
    have hhalf : n / 2 ^ (l + 1) = q / 2 := by
      rw [Nat.pow_succ, ← Nat.div_div_eq_div_mul, hq]
    have hhashes : (List.range (k + 1)).map (fun j => node compress b (l + j) (n / 2 ^ (l + j))) =
        node compress b l q ::
          (List.range k).map fun j => node compress b (l + 1 + j) (n / 2 ^ (l + 1 + j)) := by
      rw [range_succ_eq_map, map_cons, map_map, Nat.add_zero, hq]
      congr 1
      grind [map_congr_left]
    have hparent := @node_parent H compress b l q
    rw [hhashes]
    rcases Nat.even_or_odd' q with ⟨c, hc | hc⟩
    · have hnext : Peaks compress b (l + 1) (q / 2) roots := by
        rw [show q / 2 = c by omega]
        exact (hc ▸ h).of_even
      have hsib : FlatTree.emptySubtreeRoot compress zero l =
          node compress b l (sibling (n / 2 ^ l)) := by
        rw [hq, hc, sibling_two_mul]
        refine (node_zeros fun i hi => hb i ?_).symm
        have := Nat.lt_div_mul_add (a := n) (Nat.two_pow_pos l)
        grind [Nat.succ_mul]
      have hsupported : l + 1 ≤ 33 := by
        have : maxHeight - 1 ≤ 32 := hmax
        omega
      refine (if_pos (isLeftChild_iff.mpr (hq ▸ (by omega)))).trans ?_
      refine ok_bind (emptySubtreeRoot_ok (Nat.le_add_left 1 l) hsupported) ?_
      have hrun := ih hnext hhalf (by omega)
      rw [hparent, pairUp, if_pos (by omega), ← hq, ← hsib, hq] at hrun
      exact ok_bind (newPathAt_set hmax (by omega) hsib) (ok_bind hrun rfl)
    · obtain ⟨roots', rfl, hp⟩ := (hc ▸ h).of_odd
      have hnext : Peaks compress b (l + 1) (q / 2) roots' := by
        rw [show q / 2 = c by omega]
        exact hp
      have hsib : node compress b l (2 * c) = node compress b l (sibling (n / 2 ^ l)) := by
        rw [hq, hc, sibling_two_mul_add_one]
      have hright : ¬ isLeftChild n (l + 1) := by
        rw [isLeftChild_iff, hq]
        omega
      refine (if_neg hright).trans ?_
      have hrun := ih hnext hhalf (by omega)
      rw [hparent, pairUp, if_neg (by omega), ← hq, ← hsib, hq] at hrun
      exact ok_bind (newPathAt_set hmax (by omega) hsib) (ok_bind hrun rfl)

theorem updatePathsAboveMerge_spec (hmax : maxHeight - 1 ≤ maxMerklePathSiblings)
    (hb : ∀ i, n < i → b i = zero)
    (hpaths : ∀ p ∈ paths, p.leafIndex ≠ n ∧ p.siblings.length = maxHeight - 1)
    (h : Peaks compress b l q roots) (hq : n / 2 ^ l = q) (hl : l ≤ maxHeight - 1) :
    updatePathsAboveMerge compress zero maxHeight ⟨node compress b l q, l + 1⟩ roots
        (paths.map (retarget compress b n l)) (newPathAt compress zero maxHeight b n hmax l) =
      .ok (paths.map (retarget compress b n (maxHeight - 1)),
        newPathAt compress zero maxHeight b n hmax (maxHeight - 1)) := by
  have hrounds : l + (maxHeight - (l + 1)) = maxHeight - 1 := by omega
  refine ok_bind (hashesAbove_spec hmax hb h hq hrounds) ?_
  refine ok_bind (a := paths.map (retarget compress b n (maxHeight - 1))) ?_ rfl
  rw [mapM_map]
  refine mapM_ok fun p hp => retarget_above (hpaths p hp).1 hl (hpaths p hp).2 fun j hj => ?_
  have hin : j < maxHeight - (l + 1) := by omega
  rw [List.getElem?_map, List.getElem?_range hin]
  rfl

/-- What `push_with_paths` does once its checks have passed. -/
theorem pushUpdating_spec {m : MerkleMountainRange H} (elem : H) (hlow : 1 ≤ maxHeight)
    (hmax : maxHeight - 1 ≤ maxMerklePathSiblings) (hp : Peaks compress a 0 n m.roots)
    (ha : ∀ i, n ≤ i → a i = zero) (hn : n < 2 ^ (maxHeight - 1))
    (hpaths : ∀ p ∈ paths, p.leafIndex ≠ n ∧ p.siblings.length = maxHeight - 1) :
    ∃ roots last, mergePeaks compress maxHeight m.roots ⟨elem, 1⟩ = .ok (roots, last) ∧
      pushUpdating compress zero maxHeight m elem paths =
        .ok ((⟨last :: roots⟩,
            newPathAt compress zero maxHeight (update a n elem) n hmax (maxHeight - 1)),
          paths.map (retarget compress (update a n elem) n (maxHeight - 1))) := by
  have hsame : ∀ i < n, a i = update a n elem i := fun i hi => by
    rw [update_of_ne hi.ne]
  have hzero : ∀ i, n < i → update a n elem i = zero := fun i hi => by
    rw [update_of_ne hi.ne', ha i hi.le]
  have hlen : m.len = n := by simpa [MerkleMountainRange.len] using hp.len_eq
  have hempties :
      (List.range (maxHeight - 1)).mapM (fun h => emptySubtreeRoot compress zero (h + 1)) =
        .ok (newSiblings compress zero maxHeight (update a n elem) n 0) :=
    mapM_ok fun h hh => emptySubtreeRoot_ok (Nat.le_add_left 1 h) <| by
      have : maxHeight - 1 ≤ 32 := hmax
      have := mem_range.mp hh
      omega
  have hnew : MerklePath.tryNew m.len (newSiblings compress zero maxHeight (update a n elem) n 0) =
        .ok (newPathAt compress zero maxHeight (update a n elem) n hmax 0) := by
    rw [hlen]
    exact dif_pos _
  have hstart : paths.map (retarget compress (update a n elem) n 0) = paths := by
    refine (map_congr_left fun p hp => ?_).trans (map_id paths)
    exact retarget_zero (hpaths p hp).1
  obtain ⟨j, c, roots, hc, hj, hmerge, hpeaks⟩ :=
    mergeWithPaths_spec zero hmax hlow hpaths hsame hp (by simp)
      (by simpa using Nat.succ_le_of_lt hn)
  rw [Nat.zero_add] at hc hj hpeaks
  rw [Nat.zero_add j] at hmerge
  rw [hstart, node_zero, update_self] at hmerge
  refine ⟨roots, _, mergePeaks_of_mergeWithPaths hmerge, ?_⟩
  refine ok_bind hempties (ok_bind (mapError_ok.mpr hnew) (ok_bind hmerge ?_))
  exact ok_bind (updatePathsAboveMerge_spec hmax hzero hpaths (.even hpeaks) hc hj) rfl

end Loops

/-! ## The paths after a push -/

section Push

variable {a : Nat → H} {n : Nat} {elem leaf : H} {path : MerklePath H} {m : MerkleMountainRange H}
  {paths : List (MerklePath H)}

theorem retarget_trueSiblings (elem : H) (hne : path.leafIndex ≠ n)
    (h : TrueSiblings compress a 0 path.leafIndex path.siblings) :
    TrueSiblings compress (update a n elem) 0 path.leafIndex
      (retarget compress (update a n elem) n path.siblings.length path).siblings := by
  intro j hj
  rw [retarget_length] at hj
  have hsib : n / 2 ^ j = sibling (path.leafIndex / 2 ^ j) ↔
      siblingHeight n path.leafIndex = j + 1 := by
    rw [← areSiblingsAt_iff, areSiblingsAt_iff_siblingHeight hne.symm]
  have hold := h j hj
  grind [retarget, node_update_of_ne, siblingHeight_pos]

/-- A path that verified its leaf does so after the push, or it showed a collision. -/
theorem retarget_verify [DecidableEq H] (elem : H) (hne : path.leafIndex ≠ n)
    (hindex : path.leafIndex < 2 ^ path.siblings.length)
    (h : path.verify compress leaf (root compress path.siblings.length a) = true) :
    (retarget compress (update a n elem) n path.siblings.length path).verify compress leaf
        (root compress path.siblings.length (update a n elem)) = true ∨
      Collide compress (climbed compress path.leafIndex leaf path.siblings)
        (pairsAbove compress a 0 path.leafIndex path.siblings.length) := by
  have htop : climb compress path.leafIndex leaf path.siblings =
      node compress a (0 + path.siblings.length) (path.leafIndex / 2 ^ path.siblings.length) := by
    rw [← MerklePath.root_eq_climb, Nat.zero_add, Nat.div_eq_of_lt hindex, ← root_eq_node]
    exact of_decide_eq_true h
  rcases trueSiblings_of_climb htop with ⟨hleaf, htrue⟩ | hcollide
  · left
    have hnew := climb_trueSiblings (retarget_trueSiblings elem hne htrue)
    have hsame : node compress (update a n elem) 0 path.leafIndex = leaf := by
      rw [hleaf, node_zero, node_zero, update_of_ne hne]
    rw [hsame, Nat.zero_add, retarget_length, Nat.div_eq_of_lt hindex, ← root_eq_node] at hnew
    refine decide_eq_true ?_
    rw [MerklePath.root_eq_climb, retarget_leafIndex]
    exact hnew
  · exact .inr hcollide

theorem newPathAt_verify [DecidableEq H] {b : Nat → H} (hn : n < 2 ^ (maxHeight - 1))
    (hmax : maxHeight - 1 ≤ maxMerklePathSiblings) :
    (newPathAt compress zero maxHeight b n hmax (maxHeight - 1)).verify compress (b n)
      (root compress (maxHeight - 1) b) = true := by
  have hlen : (newPathAt compress zero maxHeight b n hmax (maxHeight - 1)).siblings.length =
      maxHeight - 1 := by simp [newPathAt, newSiblings]
  have hclimb := climb_trueSiblings (@newPathAt_trueSiblings H compress zero maxHeight b n hmax)
  rw [hlen, node_zero, Nat.zero_add, Nat.div_eq_of_lt hn, ← root_eq_node] at hclimb
  refine decide_eq_true ?_
  rw [MerklePath.root_eq_climb]
  exact hclimb

/-- The checks pass for a range that is not full and paths of its leaves of full length. -/
theorem checkPaths_ok (hlow : 1 ≤ maxHeight) (hmax : maxHeight ≤ 33) :
    checkPaths maxHeight m paths = .ok () ↔
      ¬ m.roots.head?.map (·.height) = some maxHeight ∧
        ∀ p ∈ paths, p.siblings.length = maxHeight - 1 ∧ p.leafIndex < m.len := by
  have hheight : assertAcceptableHeight maxHeight = .ok () :=
    failIf_ok.mpr (not_not.mpr ⟨hlow, hmax⟩)
  have hone (p : MerklePath H) :
      ((do
        p.validateForHeight maxHeight
        p.validateLeafIndex m.len : Except (Stop MerklePathError) Unit)) = .ok () ↔
        p.siblings.length = maxHeight - 1 ∧ p.leafIndex < m.len := by
    unfold MerklePath.validateForHeight MerklePath.validateLeafIndex
    rw [hheight]
    constructor
    · intro h
      obtain ⟨_, h1, h2⟩ := bind_ok h
      obtain ⟨_, -, h1⟩ := bind_ok h1
      grind [failIf_ok]
    · rintro ⟨h1, h2⟩
      exact ok_bind (a := ()) (ok_bind (a := ()) rfl (failIf_ok.mpr (not_not.mpr h1)))
        (failIf_ok.mpr (not_le.mpr h2))
  constructor
  · intro h
    obtain ⟨_, h1, h2⟩ := bind_ok h
    grind [failIf_ok, mapError_ok, forM_ok]
  · rintro ⟨h1, h2⟩
    refine ok_bind (a := ()) (failIf_ok.mpr h1) (forM_ok.mpr fun p hp => ?_)
    exact mapError_ok.mpr ((hone p).mpr (h2 p hp))

/-- The checks report errors and do not panic. -/
theorem checkPaths_not_panic {p : Panic} (hlow : 1 ≤ maxHeight) (hmax : maxHeight ≤ 33) :
    checkPaths maxHeight m paths ≠ .error (.panic p) := by
  intro h
  rcases bind_error h with h | ⟨_, -, h⟩
  · exact absurd (failIf_error.mp h).2 nofun
  · obtain ⟨path, -, h⟩ := forM_error h
    obtain ⟨e, h, he⟩ := mapError_error.mp h
    cases e with
    | error e => cases he
    | panic p =>
      rcases bind_error h with h | ⟨_, -, h⟩
      · rcases bind_error h with h | ⟨_, -, h⟩
        · obtain ⟨p', h, -⟩ := mapError_error.mp h
          exact (failIf_error.mp h).1 ⟨hlow, hmax⟩
        · exact absurd (failIf_error.mp h).2 nofun
      · exact absurd (failIf_error.mp h).2 nofun

/-- Verifying a path collides with the tree above its leaf. -/
def PathCollides (compress : H → H → H) (zero : H) (maxHeight : Nat) (elems : List H)
    (path : MerklePath H) (leaf : H) : Prop :=
  Collide compress (climbed compress path.leafIndex leaf path.siblings)
    (pairsAbove compress (padded zero elems) 0 path.leafIndex (maxHeight - 1))

/-- **Tracked paths.** An error leaves the paths as they are. Otherwise the new path verifies the
new element under the new root, and so does each path its leaf, unless it verified by a collision.
-/
theorem tracked_paths_verify [DecidableEq H] (hlow : 1 ≤ maxHeight) (hmax : maxHeight ≤ 33)
    {elems : List H} {m : MerkleMountainRange H} {r : H}
    (hm : pushAll compress maxHeight elems = .ok m)
    (hr : frontierRoot compress zero maxHeight m = .ok r) (elem : H)
    (tracked : List (MerklePath H × H))
    (hverify : ∀ t ∈ tracked, t.1.verify compress t.2 r = true) :
    (∀ p,
      (pushWithPaths compress zero maxHeight m elem (tracked.map (·.1))).1 ≠ .error (.panic p)) ∧
    (∀ e, (pushWithPaths compress zero maxHeight m elem (tracked.map (·.1))).1 = .error (.error e) →
      (pushWithPaths compress zero maxHeight m elem (tracked.map (·.1))).2 = tracked.map (·.1)) ∧
    (∀ m' path,
      (pushWithPaths compress zero maxHeight m elem (tracked.map (·.1))).1 = .ok (m', path) →
      push compress maxHeight m elem = .ok m' ∧
      ∃ r', frontierRoot compress zero maxHeight m' = .ok r' ∧
        path.verify compress elem r' = true ∧
        List.Forall₂ (fun t p => p.leafIndex = t.1.leafIndex ∧
            (p.verify compress t.2 r' = true ∨ PathCollides compress zero maxHeight elems t.1 t.2))
          tracked (pushWithPaths compress zero maxHeight m elem (tracked.map (·.1))).2) ∧
    ((∃ result, (pushWithPaths compress zero maxHeight m elem (tracked.map (·.1))).1 = .ok result) ↔
      elems.length < 2 ^ (maxHeight - 1) ∧
        ∀ t ∈ tracked, t.1.siblings.length = maxHeight - 1 ∧ t.1.leafIndex < elems.length) := by
  obtain ⟨hp, hle⟩ := pushAll_peaks zero hlow hmax hm
  have hsib : maxHeight - 1 ≤ maxMerklePathSiblings := Nat.sub_le_sub_right hmax 1
  have hlen : m.len = elems.length := by simpa [MerkleMountainRange.len] using hp.len_eq
  have hfull : m.roots.head?.map (·.height) = some maxHeight ↔
      elems.length = 2 ^ (maxHeight - 1) := by
    have hhead := hp.head_height hle
    rwa [show 0 + (maxHeight - 1) + 1 = maxHeight by omega] at hhead
  have hroot : r = root compress (maxHeight - 1) (padded zero elems) := by
    grind [frontierRoot_ok, padded_of_le]
  have hcheck : checkPaths maxHeight m (tracked.map (·.1)) = .ok () ↔
      elems.length < 2 ^ (maxHeight - 1) ∧
        ∀ t ∈ tracked, t.1.siblings.length = maxHeight - 1 ∧ t.1.leafIndex < elems.length := by
    grind [checkPaths_ok]
  unfold pushWithPaths
  cases hrun : checkPaths maxHeight m (tracked.map (·.1)) with
  | error e =>
    grind [checkPaths_not_panic]
  | ok u =>
    obtain ⟨hlt, hfit⟩ := hcheck.mp hrun
    have hpaths : ∀ p ∈ tracked.map (·.1),
        p.leafIndex ≠ elems.length ∧ p.siblings.length = maxHeight - 1 := by grind
    obtain ⟨roots, last, hmerge, hupdate⟩ := pushUpdating_spec elem hlow hsib hp
      (fun i hi => padded_of_le hi) hlt hpaths
    have hpush : push compress maxHeight m elem = .ok ⟨last :: roots⟩ := by
      refine ok_bind (a := ()) (failIf_ok.mpr ?_) (ok_bind (mapError_ok.mpr hmerge) rfl)
      rw [hfull]
      exact hlt.ne
    obtain ⟨m', hm', hp'⟩ := push_ok elem hp hlow hlt
    rw [hpush] at hm'
    cases hm'
    rw [hupdate]
    refine ⟨fun p h => ?_, fun e h => ?_, fun m' path hresult => ?_,
      fun _ => ⟨hlt, hfit⟩, fun _ => ⟨_, rfl⟩⟩
    · cases h
    · cases h
    cases hresult
    refine ⟨hpush, _, frontierRoot_ok hp' ?_ hlow hmax hlt, ?_, ?_⟩
    · grind [padded_of_le]
    · grind [newPathAt_verify]
    · rw [map_map, forall₂_map_right_iff]
      refine forall₂_same.mpr fun t ht => ⟨retarget_leafIndex, ?_⟩
      obtain ⟨hcount, hindex⟩ := hfit t ht
      have hbefore := hverify t ht
      rw [hroot, ← hcount] at hbefore
      have hafter := retarget_verify elem hindex.ne (hindex.trans (hcount ▸ hlt)) hbefore
      rw [hcount] at hafter
      exact hafter

/-- A third element after `4` and `5`, with the paths of both tracked and the first one twice. -/
theorem tracked_paths_of_two_leaves :
    let first : MerklePath Nat := ⟨0, [5, 0], by decide⟩
    let second : MerklePath Nat := ⟨1, [4, 0], by decide⟩
    let m : MerkleMountainRange Nat := ⟨[⟨Nat.pair 4 5, 2⟩]⟩
    ∃ m' path, (pushWithPaths Nat.pair 0 3 m 6 [first, second, first]).1 = .ok (m', path) ∧
      push Nat.pair 3 m 6 = .ok m' ∧
      ∃ r', frontierRoot Nat.pair 0 3 m' = .ok r' ∧ path.verify Nat.pair 6 r' = true ∧
        List.Forall₂ (fun leaf p => p.verify Nat.pair leaf r' = true) [4, 5, 4]
          (pushWithPaths Nat.pair 0 3 m 6 [first, second, first]).2 := by
  intro first second m
  obtain ⟨-, -, hok, hiff⟩ := @tracked_paths_verify Nat Nat.pair 0 3 _ (by decide) (by decide)
    [4, 5] m (Nat.pair (Nat.pair 4 5) 0) rfl rfl 6 [(first, 4), (second, 5), (first, 4)]
    (by decide)
  obtain ⟨⟨m', path⟩, hresult⟩ := hiff.mpr (by decide)
  obtain ⟨hpush, r', hr', hnew, hpaths⟩ := hok m' path hresult
  refine ⟨m', path, hresult, hpush, r', hr', hnew, ?_⟩
  -- `Nat.pair` has no collisions
  have hfree (t : MerklePath Nat × Nat) : ¬ PathCollides Nat.pair 0 3 [4, 5] t.1 t.2 := by
    rintro ⟨p, -, q, -, hne, heq⟩
    exact hne (Prod.ext_iff.mpr (Nat.pair_eq_pair.mp heq))
  have hleaves : List.Forall₂ (fun t p => p.verify Nat.pair t.2 r' = true)
      [(first, 4), (second, 5), (first, 4)]
      (pushWithPaths Nat.pair 0 3 m 6 [first, second, first]).2 :=
    hpaths.imp fun t p h => h.2.resolve_right (hfree t)
  exact (forall₂_map_left_iff (f := Prod.snd)
    (R := fun leaf (p : MerklePath Nat) => p.verify Nat.pair leaf r' = true)).mpr hleaves

/-- Under the frontier root every place has a path of its leaf, and a path that verifies another
leaf shows a collision. -/
theorem membership_complete_sound [DecidableEq H] (hlow : 1 ≤ maxHeight) (hmax : maxHeight ≤ 33)
    {elems : List H} {m : MerkleMountainRange H} {r : H}
    (hm : pushAll compress maxHeight elems = .ok m)
    (hr : frontierRoot compress zero maxHeight m = .ok r) :
    (∀ i < 2 ^ (maxHeight - 1), ∃ path : MerklePath H, path.leafIndex = i ∧
      path.siblings.length = maxHeight - 1 ∧
        path.verify compress (elems.getD i zero) r = true) ∧
    ∀ (path : MerklePath H) (leaf : H), path.leafIndex < 2 ^ (maxHeight - 1) →
      path.siblings.length = maxHeight - 1 → path.verify compress leaf r = true →
        leaf = elems.getD path.leafIndex zero ∨
          PathCollides compress zero maxHeight elems path leaf := by
  obtain ⟨hp, hle⟩ := pushAll_peaks zero hlow hmax hm
  have hroot : r = root compress (maxHeight - 1) (padded zero elems) := by
    grind [frontierRoot_ok, padded_of_le]
  have hsib : maxHeight - 1 ≤ maxMerklePathSiblings := Nat.sub_le_sub_right hmax 1
  constructor
  · intro i hi
    refine ⟨newPathAt compress zero maxHeight (padded zero elems) i hsib (maxHeight - 1), rfl, ?_, ?_⟩
    · simp [newPathAt, newSiblings]
    · exact hroot ▸ newPathAt_verify hi hsib
  · intro path leaf hindex hcount hverify
    have htop : climb compress path.leafIndex leaf path.siblings =
        node compress (padded zero elems) (0 + path.siblings.length)
          (path.leafIndex / 2 ^ path.siblings.length) := by
      rw [← MerklePath.root_eq_climb, hcount, Nat.zero_add, Nat.div_eq_of_lt hindex, ← root_eq_node,
        ← hroot]
      exact of_decide_eq_true hverify
    rcases trueSiblings_of_climb htop with ⟨hleaf, -⟩ | hcollide
    · exact .inl (hleaf.trans (node_zero ..))
    · rw [hcount] at hcollide
      exact .inr hcollide

theorem membership_of_two_leaves :
    ∃ path : MerklePath Nat, path.leafIndex = 1 ∧ path.siblings.length = 2 ∧
      path.verify Nat.pair 5 (Nat.pair (Nat.pair 4 5) 0) = true :=
  (@membership_complete_sound Nat Nat.pair 0 3 _ (by decide) (by decide) [4, 5]
    ⟨[⟨Nat.pair 4 5, 2⟩]⟩ _ rfl rfl).1 1 (by decide)

end Push

end Logos.Mmr
