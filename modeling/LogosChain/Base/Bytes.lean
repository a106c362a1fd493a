import Mathlib.Data.List.Basic
import Mathlib.Algebra.Group.Nat.Defs

/-!
# Strings of bytes

Encodings of a fixed width: a number in little-endian order, and a list of items of one width.
Strings are told apart by their parts where the widths of the parts are known.
-/

namespace Base

/-- Strings of bytes. -/
abbrev Bytes := List UInt8

/-- The low bytes of a number, the lowest first. -/
def leBytes : Nat → Nat → Bytes
  | 0, _ => []
  | width + 1, n => UInt8.ofNat n :: leBytes width (n / 256)

@[simp] theorem length_leBytes (width n : Nat) : (leBytes width n).length = width := by
  induction width generalizing n with
  | zero => rfl
  | succ width ih => simp [leBytes, ih]

/-- Numbers that fit the width are told apart by their bytes. -/
theorem leBytes_inj {width m n : Nat} (hm : m < 256 ^ width) (hn : n < 256 ^ width)
    (h : leBytes width m = leBytes width n) : m = n := by
  induction width generalizing m n with
  | zero => omega
  | succ width ih =>
    obtain ⟨hlow, hhigh⟩ := List.cons.inj h
    grind [UInt8.toNat_ofNat']

variable {α β : Type}

/-- Lists of items of one width are told apart by their strings. -/
theorem flatMap_inj_of_width {f : α → List β} {width : Nat} (hwidth : ∀ a, (f a).length = width)
    (hf : Function.Injective f) {xs ys : List α} (hlen : xs.length = ys.length)
    (h : xs.flatMap f = ys.flatMap f) : xs = ys := by
  induction xs generalizing ys with
  | nil => exact (List.eq_nil_of_length_eq_zero hlen.symm).symm
  | cons x xs ih =>
    cases ys with
    | nil => cases hlen
    | cons y ys =>
      grind [List.append_inj]

end Base
