import Mathlib.Data.List.Induction
import Mathlib.Data.List.Nodup

/-!
# Chains of messages

Every message names the message before it as its parent; the first one names a root. A history is
one chain (`Follows`), which grows at its tip. If ids tell the messages apart and none is the root,
no message occurs twice: its parents would have to, back to the root.
-/

namespace Base

variable {α ι : Type*} {parent id : α → ι} {root : ι}

/-- The id of the last message, or the root. -/
def tipFrom (id : α → ι) (root : ι) : List α → ι
  | [] => root
  | x :: xs => tipFrom id (id x) xs

/-- Every message names the one before it, and the first one the root. -/
def Follows (parent id : α → ι) (root : ι) : List α → Prop
  | [] => True
  | x :: xs => parent x = root ∧ Follows parent id (id x) xs

theorem tipFrom_append (xs ys : List α) :
    tipFrom id root (xs ++ ys) = tipFrom id (tipFrom id root xs) ys := by
  induction xs generalizing root with
  | nil => rfl
  | cons x xs ih => exact ih

theorem follows_append {xs ys : List α} :
    Follows parent id root (xs ++ ys) ↔
      Follows parent id root xs ∧ Follows parent id (tipFrom id root xs) ys := by
  induction xs generalizing root with
  | nil => simp [Follows, tipFrom]
  | cons x xs ih => simp [Follows, tipFrom, ih, and_assoc]

theorem Follows.snoc {xs : List α} {x : α} (h : Follows parent id root xs)
    (hx : parent x = tipFrom id root xs) : Follows parent id root (xs ++ [x]) :=
  follows_append.mpr ⟨h, hx, trivial⟩

theorem tipFrom_eq_or (id : α → ι) (root : ι) (xs : List α) : (xs = [] ∧ tipFrom id root xs = root) ∨
    ∃ x ∈ xs, tipFrom id root xs = id x := by
  induction xs generalizing root with
  | nil => exact .inl ⟨rfl, rfl⟩
  | cons x xs ih =>
    rcases ih (id x) with ⟨-, htip⟩ | ⟨y, hy, htip⟩
    · exact .inr ⟨x, List.mem_cons_self, htip⟩
    · exact .inr ⟨y, List.mem_cons_of_mem x hy, htip⟩

theorem Follows.nodup {xs : List α} (h : Follows parent id root xs) (hroot : ∀ x ∈ xs, id x ≠ root)
    (hid : ∀ x ∈ xs, ∀ y ∈ xs, id x = id y → x = y) : xs.Nodup := by
  induction xs using List.reverseRecOn with
  | nil => exact List.nodup_nil
  | append_singleton xs x ih =>
    obtain ⟨hxs, hx, -⟩ := follows_append.mp h
    have hnodup := ih hxs (fun y hy => hroot y (by simp [hy]))
      fun y hy z hz => hid y (by simp [hy]) z (by simp [hz])
    refine List.nodup_append.mpr ⟨hnodup, List.nodup_singleton x, ?_⟩
    rintro y hy z hz rfl
    rw [List.mem_singleton] at hz
    subst hz
    -- The first occurrence has the same parent, so the tips before the two occurrences agree.
    obtain ⟨before, after, rfl⟩ := List.append_of_mem hy
    have hfirst : parent y = tipFrom id root before := (follows_append.mp hxs).2.1
    grind [tipFrom_append, tipFrom_eq_or]

end Base
