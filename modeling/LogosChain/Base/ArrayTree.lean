import Mathlib.Data.Nat.Count
import Mathlib.Tactic.Ring

/-!
# Full binary trees over arrays

An array with `2 ^ h` places is the leaves of a full binary tree of height `h`, and its halves are
the arrays of the two subtrees (`join`). What is said of an array is said of its halves.
-/

namespace Base

namespace ArrayTree

variable {α β : Type} {h i : Nat} {compress : α → α → α} {a : Nat → Option α}

/-- An array with `2 ^ h` places followed by another. -/
def join (h : Nat) (a b : Nat → α) : Nat → α := fun i => if i < 2 ^ h then a i else b (i - 2 ^ h)

theorem join_left (a b : Nat → α) (hi : i < 2 ^ h) : join h a b i = a i := if_pos hi

theorem join_right (a b : Nat → α) (hi : 2 ^ h ≤ i) : join h a b i = b (i - 2 ^ h) :=
  if_neg (Nat.not_lt.mpr hi)

@[simp] theorem join_add (h i : Nat) (a b : Nat → α) : join h a b (2 ^ h + i) = b i := by
  grind [join_right]

theorem map_join (f : α → β) (h : Nat) (a b : Nat → α) :
    (fun i => f (join h a b i)) = join h (fun i => f (a i)) fun i => f (b i) := by
  funext i
  unfold join
  split <;> rfl

theorem forall_lt_join {a b a' b' : Nat → α} :
    (∀ i < 2 ^ (h + 1), join h a b i = join h a' b' i) ↔
      (∀ i < 2 ^ h, a i = a' i) ∧ ∀ i < 2 ^ h, b i = b' i := by
  constructor
  · intro hab
    refine ⟨fun i hi => ?_, fun i hi => ?_⟩
    · have := hab i (by omega)
      rwa [join_left a b hi, join_left a' b' hi] at this
    · have := hab (2 ^ h + i) (by omega)
      rwa [join_add, join_add] at this
  · grind [join_left, join_right]

theorem update_join_left (a b : Nat → α) (x : α) (hi : i < 2 ^ h) :
    Function.update (join h a b) i x = join h (Function.update a i x) b := by grind [join]

theorem update_join_right (a b : Nat → α) (x : α) (hi : 2 ^ h ≤ i) :
    Function.update (join h a b) i x = join h a (Function.update b (i - 2 ^ h) x) := by grind [join]

/-- The places that satisfy a predicate, counted in the halves. -/
theorem count_join (p : α → Prop) [DecidablePred p] (h : Nat) (a b : Nat → α) :
    Nat.count (fun i => p (join h a b i)) (2 ^ (h + 1)) =
      Nat.count (fun i => p (a i)) (2 ^ h) + Nat.count (fun i => p (b i)) (2 ^ h) := by
  have hdouble : 2 ^ (h + 1) = 2 ^ h + 2 ^ h := by ring
  rw [hdouble, Nat.count_add]
  simp only [join_add]
  congr 1
  refine le_antisymm (Nat.count_mono_left fun i hi hp => ?_) (Nat.count_mono_left fun i hi hp => ?_)
  · rwa [join_left a b hi] at hp
  · rwa [join_left a b hi]

/-- The root of the full tree of a height over an array. -/
def root (compress : α → α → α) : Nat → (Nat → α) → α
  | 0, a => a 0
  | h + 1, a => compress (root compress h a) (root compress h fun i => a (2 ^ h + i))

theorem root_congr {a b : Nat → α} (hab : ∀ i < 2 ^ h, a i = b i) :
    root compress h a = root compress h b := by
  induction h generalizing a b with
  | zero => exact hab 0 (by simp)
  | succ h ih =>
    grind [root]

theorem root_join (h : Nat) (a b : Nat → α) :
    root compress (h + 1) (join h a b) = compress (root compress h a) (root compress h b) := by
  grind [root, root_congr, join_left, join_add]

/-- The first place of an array without a value. -/
def FirstFree (a : Nat → Option α) (i : Nat) : Prop := a i = none ∧ ∀ j < i, a j ≠ none

theorem FirstFree.unique {j : Nat} (hi : FirstFree a i) (hj : FirstFree a j) : i = j := by
  rcases Nat.lt_trichotomy i j with hlt | heq | hlt
  · exact absurd hi.1 (hj.2 i hlt)
  · exact heq
  · exact absurd hj.1 (hi.2 j hlt)

theorem FirstFree.join_left (hf : FirstFree a i) (hi : i < 2 ^ h)
    (b : Nat → Option α) : FirstFree (join h a b) i := by
  refine ⟨(ArrayTree.join_left a b hi).trans hf.1, fun j hj => ?_⟩
  rw [ArrayTree.join_left a b (hj.trans hi)]
  exact hf.2 j hj

theorem FirstFree.join_right {b : Nat → Option α} (hf : FirstFree b i)
    (ha : ∀ j < 2 ^ h, a j ≠ none) : FirstFree (join h a b) (2 ^ h + i) := by
  refine ⟨(join_add h i a b).trans hf.1, fun j hj => ?_⟩
  by_cases hlt : j < 2 ^ h
  · rw [ArrayTree.join_left a b hlt]
    exact ha j hlt
  · rw [ArrayTree.join_right a b (by omega)]
    exact hf.2 _ (by omega)

end ArrayTree

end Base
