import Mathlib.Data.List.Basic

/-!
# Hash trees

The value of an inner node is the digest of a message made of the values of its children. Leaves are
not hashed and carry no mark. Where no leaf has the value of an inner node, the root binds the whole
tree, its shape included, unless two of the hashed messages collide.
-/

namespace Base

/-- A binary tree with values at its leaves. -/
inductive HashTree (α : Type) where
  | leaf (a : α)
  | node (left right : HashTree α)

namespace HashTree

variable {α M : Type} (join : α → α → M) (digest : M → α)

/-- The value of the root. -/
def root : HashTree α → α
  | leaf a => a
  | node left right => digest (join left.root right.root)

/-- The values from left to right. -/
def leaves : HashTree α → List α
  | leaf a => [a]
  | node left right => left.leaves ++ right.leaves

/-- Every message that is hashed for the root. -/
def messages : HashTree α → List M
  | leaf _ => []
  | node left right =>
    join (left.root join digest) (right.root join digest) :: (left.messages ++ right.messages)

variable {join digest}

theorem eq_of_root_eq {t t' : HashTree α} (hjoin : ∀ a b c d, join a b = join c d → a = c ∧ b = d)
    (hleaf : ∀ a ∈ t.leaves, ∀ b c, a ≠ digest (join b c))
    (hleaf' : ∀ a ∈ t'.leaves, ∀ b c, a ≠ digest (join b c))
    (hfree : ∀ x ∈ t.messages join digest, ∀ y ∈ t'.messages join digest,
      digest x = digest y → x = y) (h : t.root join digest = t'.root join digest) : t = t' := by
  -- Both trees are taken apart together; a leaf against a node is what the leaves rule out.
  induction t generalizing t' with
  | leaf a =>
    cases t' with
    | leaf b => exact congrArg leaf h
    | node left right => exact absurd h (hleaf a List.mem_cons_self _ _)
  | node left right ihl ihr =>
    cases t' with
    | leaf b => exact absurd h.symm (hleaf' b List.mem_cons_self _ _)
    | node left' right' =>
      have hmessage := hfree _ List.mem_cons_self _ List.mem_cons_self h
      obtain ⟨hl, hr⟩ := hjoin _ _ _ _ hmessage
      have hleft : left = left' := by
        apply ihl _ _ _ hl
        · intro a ha
          exact hleaf a (List.mem_append_left _ ha)
        · intro a ha
          exact hleaf' a (List.mem_append_left _ ha)
        · intro x hx y hy
          exact hfree x (List.mem_cons_of_mem _ (List.mem_append_left _ hx)) y
            (List.mem_cons_of_mem _ (List.mem_append_left _ hy))
      have hright : right = right' := by
        apply ihr _ _ _ hr
        · intro a ha
          exact hleaf a (List.mem_append_right _ ha)
        · intro a ha
          exact hleaf' a (List.mem_append_right _ ha)
        · intro x hx y hy
          exact hfree x (List.mem_cons_of_mem _ (List.mem_append_right _ hx)) y
            (List.mem_cons_of_mem _ (List.mem_append_right _ hy))
      rw [hleft, hright]

/-! ## Forests

A tree of which every level is full is built level by level: each round joins neighbours. -/

/-- Joins each tree at an even place with the one after it. -/
def pairUp : List (HashTree α) → List (HashTree α)
  | left :: right :: rest => node left right :: pairUp rest
  | rest => rest

theorem length_pairUp {n : Nat} {ts : List (HashTree α)} (h : ts.length = 2 * n) :
    (pairUp ts).length = n := by
  induction ts using pairUp.induct generalizing n with
  | case1 left right rest ih =>
    simp only [List.length_cons] at h
    have h1 := @ih (n - 1) (by omega)
    simp only [pairUp, List.length_cons, h1]
    omega
  | case2 rest hrest =>
    rcases rest with _ | ⟨a, _ | ⟨b, rest⟩⟩
    · grind [pairUp]
    · simp only [List.length_cons, List.length_nil] at h
      omega
    · exact absurd rfl (hrest a b rest)

@[simp] theorem leaves_pairUp (ts : List (HashTree α)) :
    (pairUp ts).flatMap leaves = ts.flatMap leaves := by
  induction ts using pairUp.induct with
  | case1 left right rest ih => simp [pairUp, leaves, ih]
  | case2 rest hrest => rw [pairUp]; exact hrest

end HashTree

end Base
