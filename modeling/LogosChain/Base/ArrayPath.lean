import LogosChain.Base.ArrayTree
import Mathlib.Data.Nat.Bitwise

/-!
# Nodes and paths of full binary trees over arrays

A path from a node up lists the siblings it passes, and `climb` hashes its way along it. A path that
leads to the node above has the true siblings or shows a collision.
-/

namespace Base

namespace ArrayTree

variable {α : Type}

section Nodes

variable (compress : α → α → α)

/-- The root over the `2 ^ l` places from `k * 2 ^ l` on. -/
def node (a : Nat → α) (l k : Nat) : α := root compress l fun i => a (k * 2 ^ l + i)

theorem node_zero (a : Nat → α) (k : Nat) : node compress a 0 k = a k := by
  simp [node, root]

theorem node_succ (a : Nat → α) (l k : Nat) :
    node compress a (l + 1) k =
      compress (node compress a l (2 * k)) (node compress a l (2 * k + 1)) := by
  have hleft : k * 2 ^ (l + 1) = 2 * k * 2 ^ l := by ring
  have hright (i : Nat) : k * 2 ^ (l + 1) + (2 ^ l + i) = (2 * k + 1) * 2 ^ l + i := by ring
  simp only [node, root, hright]
  simp only [hleft]

theorem root_eq_node (a : Nat → α) (l : Nat) : root compress l a = node compress a l 0 := by
  simp [node]

variable {compress}

theorem node_congr {a b : Nat → α} {l k : Nat}
    (hab : ∀ i, k * 2 ^ l ≤ i → i < (k + 1) * 2 ^ l → a i = b i) :
    node compress a l k = node compress b l k := by
  refine root_congr fun i hi => hab _ (Nat.le_add_right _ _) ?_
  rw [Nat.succ_mul]
  omega

/-- Writing a place leaves the nodes that are not over it. -/
theorem node_update_of_ne {a : Nat → α} {l k n : Nat} (x : α) (hk : n / 2 ^ l ≠ k) :
    node compress (Function.update a n x) l k = node compress a l k := by
  grind [node_congr, Nat.div_eq_of_lt_le]

theorem node_const {a : Nat → α} {l k : Nat} {e : α} (ha : ∀ i, k * 2 ^ l ≤ i → a i = e) :
    node compress a l k = root compress l fun _ => e :=
  root_congr fun _ _ => ha _ (Nat.le_add_right _ _)

end Nodes

/-- The other child of a node's parent. -/
def sibling (k : Nat) : Nat := if k % 2 = 0 then k + 1 else k - 1

theorem sibling_two_mul (k : Nat) : sibling (2 * k) = 2 * k + 1 := if_pos (by omega)

theorem sibling_two_mul_add_one (k : Nat) : sibling (2 * k + 1) = 2 * k :=
  (if_neg (by omega)).trans (by omega)

theorem sibling_eq_xor (k : Nat) : sibling k = k ^^^ 1 := by
  rcases Nat.even_or_odd' k with ⟨c, rfl | rfl⟩
  · rw [sibling_two_mul]
    exact (Nat.xor_one_of_even (even_two_mul c)).symm
  · grind [sibling_two_mul_add_one, Nat.xor_one_of_odd]

section Climb

variable (compress : α → α → α) {a : Nat → α} {ss : List α}

/-- One step up from node `k` with hash `x`, whose sibling has hash `s`. -/
def pairUp (k : Nat) (x s : α) : α × α := if k % 2 = 0 then (x, s) else (s, x)

/-- Climbs from node `k` with hash `x` along the siblings. -/
def climb : Nat → α → List α → α
  | _, x, [] => x
  | k, x, s :: ss => climb (k / 2) (compress (pairUp k x s).1 (pairUp k x s).2) ss

/-- The pairs that are hashed on the way. -/
def climbed : Nat → α → List α → List (α × α)
  | _, _, [] => []
  | k, x, s :: ss => pairUp k x s :: climbed (k / 2) (compress (pairUp k x s).1 (pairUp k x s).2) ss

/-- The pairs that the tree hashes above node `k` of level `l`, up to `n` levels. -/
def pairsAbove (a : Nat → α) : Nat → Nat → Nat → List (α × α)
  | _, _, 0 => []
  | l, k, n + 1 =>
    pairUp k (node compress a l k) (node compress a l (sibling k)) :: pairsAbove a (l + 1) (k / 2) n

/-- A pair of the first list and another of the second have one hash. -/
def Collide (ps qs : List (α × α)) : Prop :=
  ∃ p ∈ ps, ∃ q ∈ qs, p ≠ q ∧ compress p.1 p.2 = compress q.1 q.2

/-- The siblings above node `k` of level `l` are those of the tree. -/
def TrueSiblings (a : Nat → α) (l k : Nat) (ss : List α) : Prop :=
  ∀ j < ss.length, ss[j]? = some (node compress a (l + j) (sibling (k / 2 ^ j)))

variable {compress}

theorem node_parent (a : Nat → α) (l k : Nat) :
    node compress a (l + 1) (k / 2) =
      compress (pairUp k (node compress a l k) (node compress a l (sibling k))).1
        (pairUp k (node compress a l k) (node compress a l (sibling k))).2 := by
  grind [node_succ, pairUp, sibling_two_mul, sibling_two_mul_add_one]

theorem pairUp_inj {k : Nat} {x s y t : α} (h : pairUp k x s = pairUp k y t) : x = y ∧ s = t := by
  unfold pairUp at h
  split at h <;> simp_all

theorem trueSiblings_cons {l k : Nat} {s : α} :
    TrueSiblings compress a l k (s :: ss) ↔
      s = node compress a l (sibling k) ∧ TrueSiblings compress a (l + 1) (k / 2) ss := by
  have hlevel (j : Nat) : l + (j + 1) = l + 1 + j := by omega
  have hindex (j : Nat) : k / 2 ^ (j + 1) = k / 2 / 2 ^ j := by
    rw [Nat.div_div_eq_div_mul, Nat.pow_succ, Nat.mul_comm]
  constructor
  · intro h
    refine ⟨by simpa using h 0 (by simp), fun j hj => ?_⟩
    have := h (j + 1) (by simpa using hj)
    rwa [List.getElem?_cons_succ, hlevel, hindex] at this
  · rintro ⟨hs, hss⟩ j hj
    cases j with
    | zero => simpa using hs
    | succ j =>
      rw [List.getElem?_cons_succ, hlevel, hindex]
      exact hss j (by simpa using hj)

theorem climb_trueSiblings {l k : Nat} (h : TrueSiblings compress a l k ss) :
    climb compress k (node compress a l k) ss =
      node compress a (l + ss.length) (k / 2 ^ ss.length) := by
  induction ss generalizing l k with
  | nil => simp [climb]
  | cons s ss ih =>
    obtain ⟨rfl, hss⟩ := trueSiblings_cons.mp h
    have hup := @node_parent α compress a l k
    rw [climb, ← hup, ih hss, Nat.div_div_eq_div_mul, ← Nat.pow_succ', List.length_cons]
    congr 1
    omega

/-- A path that leads to the node above its start has the true siblings, or shows a collision. -/
theorem trueSiblings_of_climb {l k : Nat} {x : α}
    (h : climb compress k x ss = node compress a (l + ss.length) (k / 2 ^ ss.length)) :
    (x = node compress a l k ∧ TrueSiblings compress a l k ss) ∨
      Collide compress (climbed compress k x ss) (pairsAbove compress a l k ss.length) := by
  induction ss generalizing l k x with
  | nil =>
    refine .inl ⟨by simpa [climb] using h, fun j hj => absurd hj (by simp)⟩
  | cons s ss ih =>
    have htop : climb compress (k / 2) (compress (pairUp k x s).1 (pairUp k x s).2) ss =
        node compress a (l + 1 + ss.length) (k / 2 / 2 ^ ss.length) := by
      rw [Nat.div_div_eq_div_mul, ← Nat.pow_succ', Nat.add_right_comm]
      exact h
    rcases ih htop with ⟨hup, hss⟩ | ⟨p, hp, q, hq, hne, heq⟩
    · rw [node_parent] at hup
      by_cases hpair : pairUp k x s = pairUp k (node compress a l k) (node compress a l (sibling k))
      · grind [pairUp_inj, trueSiblings_cons]
      · exact .inr ⟨_, List.mem_cons_self, _, List.mem_cons_self, hpair, hup⟩
    · exact .inr ⟨p, List.mem_cons_of_mem _ hp, q, List.mem_cons_of_mem _ hq, hne, heq⟩

end Climb

end ArrayTree

end Base
