import Mathlib.Data.List.Basic

/-!
# The first items of distinct keys

A list is gone through in order, and an item is kept if none kept before it has its key, up to a
given number.
-/

namespace Base

variable {α β : Type} [DecidableEq β] (key : α → β) {r : α → α → Prop}

/-- The items whose key is not among `seen` or those before them. -/
def firstOf : List β → List α → List α
  | _, [] => []
  | seen, a :: l => if key a ∈ seen then firstOf seen l else a :: firstOf (key a :: seen) l

variable {key} {seen : List β} {l : List α} {a : α}

theorem firstOf_sublist (key : α → β) (seen : List β) (l : List α) :
    (firstOf key seen l).Sublist l := by
  induction l generalizing seen with
  | nil => exact .slnil
  | cons a l ih =>
    grind [firstOf]

theorem key_notMem_of_mem_firstOf (ha : a ∈ firstOf key seen l) : key a ∉ seen := by
  induction l generalizing seen with
  | nil => cases ha
  | cons b l ih =>
    grind [firstOf]

theorem nodup_firstOf (key : α → β) (seen : List β) (l : List α) :
    ((firstOf key seen l).map key).Nodup := by
  induction l generalizing seen with
  | nil => exact List.nodup_nil
  | cons a l ih =>
    grind [firstOf, key_notMem_of_mem_firstOf]

/-- Every key that is not seen has a kept item. -/
theorem exists_mem_firstOf (hrefl : ∀ a, r a a) (hl : l.Pairwise r) (ha : a ∈ l)
    (hseen : key a ∉ seen) : ∃ b ∈ firstOf key seen l, key b = key a ∧ r b a := by
  induction l generalizing seen with
  | nil => cases ha
  | cons b l ih =>
    grind [List.pairwise_cons, firstOf]

/-- One of its key is taken, or as many as may be taken and all before it. -/
theorem taken_or_cut (key : α → β) (hrefl : ∀ a, r a a) (htrans : ∀ a b c, r a b → r b c → r a c)
    (hl : l.Pairwise r) (ha : a ∈ l) (n : Nat) :
    (∃ b ∈ (firstOf key [] l).take n, key b = key a ∧ r b a) ∨
      (((firstOf key [] l).take n).length = n ∧ ∀ b ∈ (firstOf key [] l).take n, r b a) := by
  have hunseen : key a ∉ [] := List.not_mem_nil
  obtain ⟨b, hb, hkey, hba⟩ := exists_mem_firstOf hrefl hl ha hunseen
  have hsorted := hl.sublist (firstOf_sublist key [] l)
  rw [← List.take_append_drop n (firstOf key [] l)] at hb hsorted
  rcases List.mem_append.mp hb with hb | hb
  · exact .inl ⟨b, hb, hkey, hba⟩
  · -- The item of the key is past the cut, so every item that is taken comes before it.
    grind [List.length_drop]

end Base
