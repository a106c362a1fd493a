import LogosChain.Base.ArrayPath
import LogosChain.Merkle.Canonical
import LogosChain.Merkle.Mmr
import Mathlib.Data.Nat.Pairing

/-!
# Ranges of any supported height (`mmr`)

The range as the source has it, for a maximal height that is a parameter, with its assertions. The
stack of peaks is the binary expansion of the number of elements (`Peaks`), and a push is an
increment with carries.
-/

namespace Logos.Mmr

open Base Base.ArrayTree MerkleMountainRange List

/-- The assertions and panics of a range and of its paths. -/
inductive Panic where
  /-- "unsupported MMR height {actual}; expected a height in 1..={maximum}" -/
  | unsupportedHeight (actual : Nat)
  /-- "Height must be less than or equal to {MAX_HEIGHT}" -/
  | heightAboveMax
  /-- `assert!(height <= MAX_HEIGHT)` of `frontier_root` -/
  | frontierHeight
  /-- "supported MMR height must produce a globally bounded internal path" -/
  | siblingBound
  /-- "merge requires same-height peaks: left={}, right={}" -/
  | mergeHeights (left right : Nat)
  /-- "stack underflow" -/
  | stackUnderflow
  /-- a sibling or a hash that is not there -/
  | indexOutOfBounds (index : Nat)
deriving DecidableEq

/-- A call without a result: it stops the program, or reports an error. -/
inductive Stop (E : Type) where
  | panic (p : Panic)
  | error (e : E)
deriving DecidableEq

/-- "MMR is full" -/
inductive MmrFull where
  | mmrFull
deriving DecidableEq

/-- The heights that are supported. -/
def assertAcceptableHeight (height : Nat) : Except Panic Unit :=
  failIf (¬ (1 ≤ height ∧ height ≤ maxHeight)) (.unsupportedHeight height)

variable {H : Type} (compress : H → H → H) (zero : H) (maxHeight : Nat)

/-- The root of an empty subtree (`PRECOMPUTED_EMPTY_ROOTS`). -/
def emptySubtreeRoot (height : Nat) : Except Panic H := do
  assertAcceptableHeight height
  return FlatTree.emptySubtreeRoot compress zero (height - 1)

def new : Except Panic (MerkleMountainRange H) := do
  assertAcceptableHeight maxHeight
  return ⟨[]⟩

/-- The loop of `push`: merges peaks of the height of the last root. -/
def mergePeaks : List (MmrRoot H) → MmrRoot H → Except Panic (List (MmrRoot H) × MmrRoot H)
  | [], last => .ok ([], last)
  | root :: roots, last =>
    if last.height = root.height then do
      failIf (maxHeight < last.height + 1) .heightAboveMax
      mergePeaks roots ⟨compress root.root last.root, last.height + 1⟩
    else .ok (root :: roots, last)

/-- Pushes an element, unless the range is full. -/
def push (m : MerkleMountainRange H) (elem : H) :
    Except (Stop MmrFull) (MerkleMountainRange H) := do
  failIf (m.roots.head?.map (·.height) = some maxHeight) (.error .mmrFull)
  let (roots, last) ← (mergePeaks compress maxHeight m.roots ⟨elem, 1⟩).mapError .panic
  return ⟨last :: roots⟩

/-- The loops `while height < …` of `frontier_root`. -/
def padUp : H → Nat → Nat → Except Panic H
  | root, _, 0 => .ok root
  | root, height, n + 1 => do
    let empty ← emptySubtreeRoot compress zero height
    padUp (compress root empty) (height + 1) n

/-- The loop of `frontier_root` over the peaks under the first one. -/
def joinPeaks : H → Nat → List (MmrRoot H) → Except Panic (H × Nat)
  | root, height, [] => .ok (root, height)
  | root, height, last :: roots => do
    let root ← padUp compress zero root height (last.height - height)
    joinPeaks (compress last.root root) (max height last.height + 1) roots

/-- The root over the elements followed by zeros. -/
def frontierRoot (m : MerkleMountainRange H) : Except Panic H :=
  match m.roots with
  | [] => emptySubtreeRoot compress zero maxHeight
  | last :: roots => do
    let (root, height) ← joinPeaks compress zero last.root last.height roots
    failIf (maxHeight < height) .frontierHeight
    padUp compress zero root height (maxHeight - height)

/-- The range after pushing elements onto an empty one. -/
def pushAll (elems : List H) : Except (Stop MmrFull) (MerkleMountainRange H) := do
  let m ← (new maxHeight).mapError .panic
  elems.foldlM (push compress maxHeight) m

/-! ## The peaks as a binary expansion -/

/-- The peaks over `q` blocks of `2 ^ l` places, by the bits of `q`. -/
inductive Peaks (a : Nat → H) : Nat → Nat → List (MmrRoot H) → Prop where
  | nil (l : Nat) : Peaks a l 0 []
  | even {l q : Nat} {roots : List (MmrRoot H)} : Peaks a (l + 1) q roots → Peaks a l (2 * q) roots
  | odd {l q : Nat} {roots : List (MmrRoot H)} : Peaks a (l + 1) q roots →
      Peaks a l (2 * q + 1) (⟨node compress a l (2 * q), l + 1⟩ :: roots)

/-- The bit `l` stands for the root over the last `2 ^ l` places. -/
def peaks (a : Nat → H) (n : Nat) : List (MmrRoot H) :=
  ((List.range maxHeight).filter n.testBit).map fun l => ⟨node compress a l (n / 2 ^ l - 1), l + 1⟩

/-- The elements, followed by zeros. -/
def padded (elems : List H) : Nat → H := fun i => elems.getD i zero

variable {compress zero maxHeight}

namespace Peaks

variable {a b : Nat → H} {l q : Nat} {roots : List (MmrRoot H)}

section

variable (h : Peaks compress a l q roots)
include h

theorem height_lt {r : MmrRoot H} (hr : r ∈ roots) : l < r.height := by
  induction h with
  | nil => cases hr
  | even _ ih => exact Nat.lt_of_succ_lt (ih hr)
  | odd _ ih =>
    grind

theorem increasing : (roots.map (·.height)).Pairwise (· < ·) := by
  induction h with
  | nil => exact .nil
  | even _ ih => exact ih
  | odd hp ih =>
    refine pairwise_cons.mpr ⟨fun height hmem => ?_, ih⟩
    obtain ⟨r, hr, rfl⟩ := mem_map.mp hmem
    exact hp.height_lt hr

theorem len_eq : (roots.map fun r => 2 ^ (r.height - 1)).sum = q * 2 ^ l := by
  induction h with
  | nil => simp
  | even _ ih => rw [ih]; ring
  | odd _ ih => rw [map_cons, sum_cons, ih, Nat.add_sub_cancel]; ring

theorem congr (hab : ∀ i < q * 2 ^ l, a i = b i) : Peaks compress b l q roots := by
  induction h with
  | nil l => exact .nil l
  | @even l q _ _ ih =>
    have hsame : q * 2 ^ (l + 1) = 2 * q * 2 ^ l := by ring
    exact .even (ih fun i hi => hab i (hsame ▸ hi))
  | @odd l q _ _ ih =>
    have hsplit : (2 * q + 1) * 2 ^ l = q * 2 ^ (l + 1) + 2 ^ l := by ring
    have hroot : node compress a l (2 * q) = node compress b l (2 * q) :=
      node_congr fun i _ hi => hab i hi
    rw [hroot]
    exact .odd (ih fun i hi => hab i (hsplit ▸ Nat.lt_add_right _ hi))

/-- At most `2 ^ k` blocks have a top peak of full height exactly if they are as many. -/
theorem head_height {k : Nat} (hq : q ≤ 2 ^ k) :
    roots.head?.map (·.height) = some (l + k + 1) ↔ q = 2 ^ k := by
  induction h generalizing k with
  | nil l =>
    grind
  | @even l q roots hp ih =>
    cases k with
    | zero =>
      -- no peak of the next level has the height of this one
      constructor
      · intro hhead
        obtain ⟨r, hr, hheight⟩ := Option.map_eq_some_iff.mp hhead
        have := hp.height_lt (mem_of_mem_head? hr)
        omega
      · grind
    | succ k =>
      grind
  | @odd l q roots hp ih =>
    simp only [List.head?_cons, Option.map_some, Option.some.injEq]
    cases k with
    | zero =>
      grind
    | succ k =>
      rw [Nat.pow_succ]
      omega

theorem eq_bits {k : Nat} (hq : q < 2 ^ k) :
    roots = ((List.range k).filter q.testBit).map fun j =>
      ⟨node compress a (l + j) (q / 2 ^ j - 1), l + j + 1⟩ := by
  induction h generalizing k with
  | nil l => simp
  | @even l q roots hp ih =>
    cases k with
    | zero =>
      grind
    | succ k =>
      have hdiv (j : Nat) : 2 * q / 2 ^ (j + 1) = q / 2 ^ j := by
        rw [Nat.pow_succ', Nat.mul_div_mul_left _ _ (by decide)]
      have hbit : (2 * q).testBit ∘ Nat.succ = q.testBit := by
        funext j
        simp [Nat.testBit_succ]
      rw [range_succ_eq_map, filter_cons_of_neg (by simp), filter_map, hbit,
        map_map, ih (k := k) (by rw [Nat.pow_succ] at hq; omega)]
      grind [map_congr_left]
  | @odd l q roots hp ih =>
    cases k with
    | zero =>
      omega
    | succ k =>
      have hdiv (j : Nat) : (2 * q + 1) / 2 ^ (j + 1) = q / 2 ^ j := by
        rw [Nat.pow_succ', ← Nat.div_div_eq_div_mul]
        congr 1
        omega
      have hbit : (2 * q + 1).testBit ∘ Nat.succ = q.testBit := by
        funext j
        have hhalf : (2 * q + 1) / 2 = q := by omega
        simp [Nat.testBit_succ, hhalf]
      rw [range_succ_eq_map, filter_cons_of_pos (by simp), filter_map, hbit,
        map_cons, map_map, ih (k := k) (by rw [Nat.pow_succ] at hq; omega)]
      grind [map_congr_left]

end

theorem eq_zero_of_nil (h : Peaks compress a l q []) : q = 0 := by
  have hlen := h.len_eq
  grind [Nat.mul_eq_zero]

/-- Peaks of a higher level are peaks of a lower one. -/
theorem lower {j : Nat} (h : Peaks compress a (l + j) q roots) :
    Peaks compress a l (2 ^ j * q) roots := by
  induction j generalizing l with
  | zero => simpa using h
  | succ j ih =>
    rw [Nat.pow_succ', Nat.mul_assoc]
    refine .even (ih ?_)
    rwa [Nat.add_right_comm]

theorem top {r : MmrRoot H} (h : Peaks compress a l q (r :: roots)) :
    ∃ j c, q = 2 ^ j * (2 * c + 1) ∧ r = ⟨node compress a (l + j) (2 * c), l + j + 1⟩ ∧
      Peaks compress a (l + j + 1) c roots := by
  generalize hall : r :: roots = all at h
  induction h with
  | nil => cases hall
  | even _ ih =>
    obtain ⟨j, c, rfl, rfl, hp⟩ := ih hall
    rw [Nat.add_right_comm _ 1 j] at hp
    exact ⟨j + 1, c, by ring, by rw [Nat.add_right_comm _ 1 j]; rfl, hp⟩
  | odd hp _ =>
    cases hall
    exact ⟨0, _, by simp, rfl, hp⟩

theorem of_even (h : Peaks compress a l (2 * q) roots) : Peaks compress a (l + 1) q roots := by
  generalize hn : 2 * q = n at h
  cases h with
  | nil =>
    obtain rfl : q = 0 := by omega
    exact .nil _
  | @even _ q' _ hp =>
    obtain rfl : q = q' := by omega
    exact hp
  | odd => omega

theorem of_odd (h : Peaks compress a l (2 * q + 1) roots) :
    ∃ roots', roots = ⟨node compress a l (2 * q), l + 1⟩ :: roots' ∧
      Peaks compress a (l + 1) q roots' := by
  generalize hn : 2 * q + 1 = n at h
  cases h with
  | nil => omega
  | even => omega
  | @odd _ q' roots' hp =>
    obtain rfl : q = q' := by omega
    exact ⟨roots', rfl, hp⟩

end Peaks

/-! ## Pushing -/

section Push

variable {a b : Nat → H} {l q : Nat} {roots : List (MmrRoot H)}

theorem level_le {k : Nat} (h : (q + 1) * 2 ^ l ≤ 2 ^ k) : l ≤ k :=
  (Nat.pow_le_pow_iff_right (by decide)).mp ((Nat.le_mul_of_pos_left _ q.succ_pos).trans h)

/-- The loop carries over the set bits at the end of `q`; `b` has the new element. -/
theorem mergePeaks_spec (h : Peaks compress a l q roots) (hsame : ∀ i < q * 2 ^ l, a i = b i)
    (hfit : (q + 1) * 2 ^ l ≤ 2 ^ (maxHeight - 1)) (hmax : 1 ≤ maxHeight) :
    ∃ j c roots', q + 1 = 2 ^ j * (2 * c + 1) ∧
      mergePeaks compress maxHeight roots ⟨node compress b l q, l + 1⟩ =
        .ok (roots', ⟨node compress b (l + j) (2 * c), l + j + 1⟩) ∧
      Peaks compress b (l + j + 1) c roots' := by
  induction h with
  | nil l => exact ⟨0, 0, [], rfl, rfl, .nil _⟩
  | @even l q roots hp ih =>
    have hkeep : Peaks compress b (l + 1) q roots :=
      hp.congr fun i hi => hsame i (by rwa [Nat.pow_succ', ← Nat.mul_assoc, Nat.mul_comm q] at hi)
    refine ⟨0, q, roots, by ring, ?_, hkeep⟩
    cases roots with
    | nil => rfl
    | cons r roots =>
      have hlt := hp.height_lt mem_cons_self
      exact if_neg (by simp only; omega)
  | @odd l q roots hp ih =>
    have hdouble : (q + 1) * 2 ^ (l + 1) = (2 * q + 1 + 1) * 2 ^ l := by ring
    have hlt : l + 1 ≤ maxHeight - 1 := level_le (hdouble ▸ hfit)
    have hblocks : (2 * q + 1) * 2 ^ l = q * 2 ^ (l + 1) + 2 ^ l := by ring
    have hleft : node compress a l (2 * q) = node compress b l (2 * q) :=
      node_congr fun i _ hi => hsame i hi
    obtain ⟨j, c, roots', hq, hrun, hpeaks⟩ :=
      ih (fun i hi => hsame i (hblocks ▸ Nat.lt_add_right _ hi)) (hdouble ▸ hfit)
    have hlevel : l + 1 + j = l + (j + 1) := by omega
    rw [hlevel] at hrun hpeaks
    refine ⟨j + 1, c, roots', by rw [Nat.pow_succ', Nat.mul_assoc, ← hq]; ring, ?_, hpeaks⟩
    rw [node_succ] at hrun
    rw [mergePeaks, if_pos rfl, hleft]
    exact ok_bind (a := ()) (failIf_ok.mpr (by simp only; omega)) hrun

theorem push_ok {m : MerkleMountainRange H} {n : Nat} (elem : H) (h : Peaks compress a 0 n m.roots)
    (hmax : 1 ≤ maxHeight) (hn : n < 2 ^ (maxHeight - 1)) :
    ∃ m', push compress maxHeight m elem = .ok m' ∧
      Peaks compress (Function.update a n elem) 0 (n + 1) m'.roots := by
  have hopen : ¬ (m.roots.head?.map (·.height) = some maxHeight) := by
    have hhead := h.head_height (k := maxHeight - 1) hn.le
    grind
  have hsame : ∀ i < n * 2 ^ 0, a i = Function.update a n elem i := by
    intro i hi
    rw [Function.update_of_ne (by omega)]
  obtain ⟨j, c, roots', hq, hrun, hpeaks⟩ :=
    mergePeaks_spec h hsame (by simpa using Nat.succ_le_of_lt hn) hmax
  rw [node_zero, Function.update_self] at hrun
  refine ⟨⟨_ :: roots'⟩,
    ok_bind (a := ()) (failIf_ok.mpr hopen) (ok_bind (mapError_ok.mpr hrun) rfl), ?_⟩
  rw [hq]
  exact Peaks.lower (.odd hpeaks)

theorem push_full {m : MerkleMountainRange H} (elem : H)
    (h : Peaks compress a 0 (2 ^ (maxHeight - 1)) m.roots) (hmax : 1 ≤ maxHeight) :
    push compress maxHeight m elem = .error (.error .mmrFull) := by
  have hhead := (h.head_height le_rfl).mpr rfl
  rw [show 0 + (maxHeight - 1) + 1 = maxHeight by omega] at hhead
  exact error_bind (failIf_error.mpr ⟨hhead, rfl⟩)

end Push

/-! ## The frontier root -/

section Frontier

variable {a : Nat → H} {l q : Nat} {roots : List (MmrRoot H)}

theorem emptySubtreeRoot_ok {height : Nat} (hlow : 1 ≤ height) (hhigh : height ≤ 33) :
    emptySubtreeRoot compress zero height =
      .ok (FlatTree.emptySubtreeRoot compress zero (height - 1)) :=
  ok_bind (a := ()) (failIf_ok.mpr (not_not.mpr ⟨hlow, hhigh⟩)) rfl

theorem node_zeros {k : Nat} (ha : ∀ i, k * 2 ^ l ≤ i → a i = zero) :
    node compress a l k = FlatTree.emptySubtreeRoot compress zero l :=
  (node_const ha).trans (Merkle.Node.root_const compress zero l)

/-- A node with only zeros to its right is lifted to its parent. -/
theorem node_lift {k : Nat} (ha : ∀ i, (2 * k + 1) * 2 ^ l ≤ i → a i = zero) :
    compress (node compress a l (2 * k)) (FlatTree.emptySubtreeRoot compress zero l) =
      node compress a (l + 1) k := by
  rw [node_succ, node_zeros ha]

theorem padUp_spec {k n : Nat} (ha : ∀ i, 2 ^ k ≤ i → a i = zero) (hfit : k + n ≤ 33) :
    padUp compress zero (node compress a k 0) (k + 1) n = .ok (node compress a (k + n) 0) := by
  induction n generalizing k with
  | zero => rfl
  | succ n ih =>
    refine ok_bind (emptySubtreeRoot_ok (by omega) (by omega)) ?_
    have hlift : compress (node compress a k 0) (FlatTree.emptySubtreeRoot compress zero k) =
        node compress a (k + 1) 0 := node_lift (k := 0) (by simpa using ha)
    grind

theorem joinPeaks_pad {root : H} {height : Nat} {r : MmrRoot H} (hlow : 1 ≤ height)
    (hhigh : height ≤ 33) (hlt : height < r.height) :
    joinPeaks compress zero root height (r :: roots) =
      joinPeaks compress zero
        (compress root (FlatTree.emptySubtreeRoot compress zero (height - 1))) (height + 1)
        (r :: roots) := by
  obtain ⟨n, hn⟩ : ∃ n, r.height = height + 1 + n := ⟨r.height - (height + 1), by omega⟩
  have hsteps : r.height - height = n + 1 := by omega
  grind [joinPeaks, padUp, bind_of_ok, emptySubtreeRoot_ok]

/-- The loop over the peaks keeps the root over everything from the current block on. -/
theorem joinPeaks_spec (h : Peaks compress a l q roots) (ha : ∀ i, (q + 1) * 2 ^ l ≤ i → a i = zero)
    (hl : l < maxHeight) (hfit : q * 2 ^ l < 2 ^ (maxHeight - 1)) (hmax : maxHeight ≤ 33) :
    ∃ k, joinPeaks compress zero (node compress a l q) (l + 1) roots =
        .ok (node compress a k 0, k + 1) ∧ k < maxHeight ∧ ∀ i, 2 ^ k ≤ i → a i = zero := by
  induction h with
  | nil l => exact ⟨l, rfl, hl, by simpa using ha⟩
  | @even l q roots hp ih =>
    cases roots with
    | nil =>
      obtain rfl := hp.eq_zero_of_nil
      exact ⟨l, rfl, hl, by simpa using ha⟩
    | cons r roots =>
      have hpos : 0 < q := by grind [Peaks.top]
      have hsame : q * 2 ^ (l + 1) = 2 * q * 2 ^ l := by ring
      have hlt : l + 1 < maxHeight - 1 := by
        refine (Nat.pow_lt_pow_iff_right (by decide : 1 < 2)).mp (lt_of_le_of_lt ?_ hfit)
        rw [← hsame]
        exact Nat.le_mul_of_pos_left _ hpos
      grind [node_lift, joinPeaks_pad, Peaks.height_lt]
  | @odd l q roots hp ih =>
    have hlt : l < maxHeight - 1 := by
      refine (Nat.pow_lt_pow_iff_right (by decide : 1 < 2)).mp (lt_of_le_of_lt ?_ hfit)
      exact Nat.le_mul_of_pos_left _ (by omega)
    have hnext : (q + 1) * 2 ^ (l + 1) = (2 * q + 1 + 1) * 2 ^ l := by ring
    have hblocks : (2 * q + 1) * 2 ^ l = q * 2 ^ (l + 1) + 2 ^ l := by ring
    obtain ⟨k, hrun, hk⟩ := ih (fun i hi => ha i (hnext ▸ hi)) (by omega)
      (lt_of_le_of_lt (hblocks ▸ Nat.le_add_right _ _) hfit)
    refine ⟨k, ?_, hk⟩
    rw [node_succ] at hrun
    rw [joinPeaks, Nat.sub_self, padUp, bind_of_ok rfl, max_self]
    exact hrun

theorem frontierRoot_ok {m : MerkleMountainRange H} {n : Nat} (h : Peaks compress a 0 n m.roots)
    (ha : ∀ i, n ≤ i → a i = zero) (hlow : 1 ≤ maxHeight) (hmax : maxHeight ≤ 33)
    (hn : n ≤ 2 ^ (maxHeight - 1)) :
    frontierRoot compress zero maxHeight m = .ok (root compress (maxHeight - 1) a) := by
  rw [root_eq_node]
  unfold frontierRoot
  cases hroots : m.roots with
  | nil =>
    grind [node_zeros, emptySubtreeRoot_ok, Peaks.eq_zero_of_nil]
  | cons last roots =>
    rw [hroots] at h
    obtain ⟨j, c, rfl, rfl, hp⟩ := h.top
    rw [Nat.zero_add] at hp ⊢
    have hpos : 0 < 2 ^ j := Nat.two_pow_pos j
    have htop : (2 * c + 1) * 2 ^ j = 2 ^ j * (2 * c + 1) := Nat.mul_comm _ _
    have hsplit : 2 ^ j * (2 * c + 1) = 2 * c * 2 ^ j + 2 ^ j := by ring
    have hj : j ≤ maxHeight - 1 := by
      refine (Nat.pow_le_pow_iff_right (by decide : 1 < 2)).mp (le_trans ?_ hn)
      exact Nat.le_mul_of_pos_right _ (by omega)
    obtain ⟨k, hrun, hk, hzero⟩ :=
      joinPeaks_spec (.even hp) (fun i hi => ha i (htop ▸ hi)) (by omega) (by omega) hmax
    refine ok_bind hrun (ok_bind (a := ()) (failIf_ok.mpr (by omega)) ?_)
    rw [padUp_spec hzero (by omega)]
    congr 2
    omega

end Frontier

/-! ## Runs of pushes -/

section Runs

variable {elems : List H} {m : MerkleMountainRange H}

theorem padded_of_le {i : Nat} (hi : elems.length ≤ i) : padded zero elems i = zero :=
  getD_eq_default _ _ hi

theorem padded_snoc (elem : H) :
    padded zero (elems ++ [elem]) = Function.update (padded zero elems) elems.length elem := by
  grind [padded]

theorem pushAll_nil (hlow : 1 ≤ maxHeight) (hmax : maxHeight ≤ 33) :
    pushAll compress maxHeight [] = .ok ⟨[]⟩ :=
  ok_bind (mapError_ok.mpr (ok_bind (a := ()) (failIf_ok.mpr (not_not.mpr ⟨hlow, hmax⟩)) rfl)) rfl

theorem pushAll_snoc (elem : H) :
    pushAll compress maxHeight (elems ++ [elem]) =
      pushAll compress maxHeight elems >>= fun m => push compress maxHeight m elem := by
  unfold pushAll
  cases (new maxHeight).mapError Stop.panic with
  | error e => rfl
  | ok m =>
    refine (foldlM_append (m := Except _)).trans (bind_congr fun m' => ?_)
    rw [foldlM_cons]
    exact bind_pure _

/-- A range that elements were pushed onto has their peaks, and room for them. -/
theorem pushAll_peaks (zero : H) (hlow : 1 ≤ maxHeight) (hmax : maxHeight ≤ 33)
    (h : pushAll compress maxHeight elems = .ok m) :
    Peaks compress (padded zero elems) 0 elems.length m.roots ∧
      elems.length ≤ 2 ^ (maxHeight - 1) := by
  induction elems using List.reverseRecOn generalizing m with
  | nil =>
    rw [pushAll_nil hlow hmax] at h
    cases h
    exact ⟨.nil 0, Nat.zero_le _⟩
  | append_singleton elems elem ih =>
    rw [pushAll_snoc] at h
    obtain ⟨m', hm', hpush⟩ := bind_ok h
    obtain ⟨hp, hle⟩ := ih hm'
    rcases Nat.lt_or_eq_of_le hle with hlt | heq
    · obtain ⟨m'', hm'', hp'⟩ := push_ok elem hp hlow hlt
      grind [padded_snoc]
    · grind [push_full]

theorem exists_pushAll (zero : H) (hlow : 1 ≤ maxHeight) (hmax : maxHeight ≤ 33)
    (hle : elems.length ≤ 2 ^ (maxHeight - 1)) : ∃ m, pushAll compress maxHeight elems = .ok m := by
  induction elems using List.reverseRecOn with
  | nil => exact ⟨_, pushAll_nil hlow hmax⟩
  | append_singleton elems elem ih =>
    rw [length_append, length_singleton] at hle
    obtain ⟨m, hm⟩ := ih (by omega)
    obtain ⟨m', hm', -⟩ := push_ok elem (pushAll_peaks zero hlow hmax hm).1 hlow hle
    exact ⟨m', by rw [pushAll_snoc]; exact ok_bind hm hm'⟩

/-- A range takes another element as long as there is room, its peaks are the roots over the blocks
of the binary expansion, and its frontier root is that of the complete tree. -/
theorem range_of_pushes (hlow : 1 ≤ maxHeight) (hmax : maxHeight ≤ 33) (elems : List H) :
    ((∃ m, pushAll compress maxHeight elems = .ok m) ↔ elems.length ≤ 2 ^ (maxHeight - 1)) ∧
    ∀ m, pushAll compress maxHeight elems = .ok m →
      (∀ elem, elems.length < 2 ^ (maxHeight - 1) → ∃ m', push compress maxHeight m elem = .ok m') ∧
      (∀ elem, 2 ^ (maxHeight - 1) ≤ elems.length →
        push compress maxHeight m elem = .error (.error .mmrFull)) ∧
      m.len = elems.length ∧
      (m.roots.map (·.height)).Pairwise (· < ·) ∧
      m.roots = peaks compress maxHeight (padded zero elems) elems.length ∧
      frontierRoot compress zero maxHeight m =
        .ok (root compress (maxHeight - 1) (padded zero elems)) := by
  refine ⟨⟨fun ⟨m, hm⟩ => (pushAll_peaks zero hlow hmax hm).2, exists_pushAll zero hlow hmax⟩, ?_⟩
  intro m hm
  obtain ⟨hp, hle⟩ := pushAll_peaks zero hlow hmax hm
  have hbits : elems.length < 2 ^ maxHeight :=
    lt_of_le_of_lt hle (Nat.pow_lt_pow_right (by decide) (by omega))
  refine ⟨fun elem hlt => ?_, fun elem hge => ?_, ?_, hp.increasing, ?_, ?_⟩
  · obtain ⟨m', hm', -⟩ := push_ok elem hp hlow hlt
    exact ⟨m', hm'⟩
  · rw [le_antisymm hle hge] at hp
    exact push_full elem hp hlow
  · simpa [len] using hp.len_eq
  · simpa [peaks] using hp.eq_bits hbits
  · exact frontierRoot_ok hp (fun i hi => padded_of_le hi) hlow hmax hle

/-- Three elements under a height of three: two peaks, and a root with a zero at the last leaf. -/
theorem range_of_three_pushes :
    (∃ m, pushAll Nat.pair 3 [4, 5, 6] = .ok m) ∧
    ∀ m, pushAll Nat.pair 3 [4, 5, 6] = .ok m →
      m.len = 3 ∧ m.roots = [⟨6, 1⟩, ⟨Nat.pair 4 5, 2⟩] ∧
      frontierRoot Nat.pair 0 3 m = .ok (Nat.pair (Nat.pair 4 5) (Nat.pair 6 0)) := by
  obtain ⟨hexists, hspec⟩ := @range_of_pushes Nat Nat.pair 0 3 (by decide) (by decide) [4, 5, 6]
  refine ⟨hexists.mpr (by decide), fun m hm => ?_⟩
  obtain ⟨-, -, hlen, -, hroots, hroot⟩ := hspec m hm
  exact ⟨hlen, hroots, hroot⟩

end Runs

/-! ## The range of the ledger

`MerkleMountainRange` fixes the largest height and leaves the assertions out. -/

section Ledger

variable {m m' : MerkleMountainRange H}

theorem mergePeaks_ledger {roots roots' : List (MmrRoot H)} {last last' : MmrRoot H}
    (h : mergePeaks compress maxHeight roots last = .ok (roots', last')) :
    MerkleMountainRange.mergePeaks compress roots last = last' :: roots' := by
  induction roots generalizing last with
  | nil => cases h; rfl
  | cons root roots ih =>
    rw [mergePeaks] at h
    rw [MerkleMountainRange.mergePeaks]
    split at h
    · obtain ⟨-, -, h⟩ := bind_ok h
      rw [if_pos ‹_›, ih h]
    · cases h
      rw [if_neg ‹_›]

theorem push_ledger {elem : H} (h : push compress MerkleMountainRange.maxHeight m elem = .ok m') :
    MerkleMountainRange.push compress m elem = some m' := by
  obtain ⟨_, hopen, h⟩ := bind_ok h
  obtain ⟨⟨roots, last⟩, hrun, h⟩ := bind_ok h
  cases h
  unfold MerkleMountainRange.push
  rw [if_neg (failIf_ok.mp hopen), mergePeaks_ledger (mapError_ok.mp hrun)]

theorem padUp_ledger {r root : H} {height n : Nat} (h : padUp compress zero root height n = .ok r) :
    padTo compress zero root height n = r := by
  induction n generalizing root height with
  | zero => cases h; rfl
  | succ n ih =>
    obtain ⟨empty, hempty, h⟩ := bind_ok h
    obtain ⟨-, -, hempty⟩ := bind_ok hempty
    cases hempty
    exact ih h

theorem joinPeaks_ledger {roots : List (MmrRoot H)} {root r : H} {height top : Nat}
    (h : joinPeaks compress zero root height roots = .ok (r, top)) :
    MerkleMountainRange.joinPeaks compress zero root height roots =
      MerkleMountainRange.padTo compress zero r top (MerkleMountainRange.maxHeight - top) := by
  induction roots generalizing root height with
  | nil => cases h; rfl
  | cons last roots ih =>
    obtain ⟨lifted, hlifted, h⟩ := bind_ok h
    rw [MerkleMountainRange.joinPeaks, padUp_ledger hlifted, ih h]

theorem frontierRoot_ledger {r : H}
    (h : frontierRoot compress zero MerkleMountainRange.maxHeight m = .ok r) :
    m.frontierRoot compress zero = r := by
  unfold frontierRoot at h
  unfold MerkleMountainRange.frontierRoot
  cases hroots : m.roots with
  | nil =>
    rw [hroots] at h
    obtain ⟨-, -, h⟩ := bind_ok h
    cases h
    rfl
  | cons last roots =>
    rw [hroots] at h
    obtain ⟨⟨root, top⟩, hjoin, h⟩ := bind_ok h
    obtain ⟨-, -, h⟩ := bind_ok h
    exact (joinPeaks_ledger hjoin).trans (padUp_ledger h)

end Ledger

end Logos.Mmr
