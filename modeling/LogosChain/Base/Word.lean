import Mathlib.Algebra.Group.Int.Defs
import Mathlib.Algebra.GroupWithZero.Nat

/-!
# Machine words

Unsigned words of `w` bits as natural numbers below `2 ^ w`, and two's complement words as integers,
with the operations that report an overflow, stop at the largest word, or wrap around.
-/

namespace Base

/-- `checked_add` on words of `w` bits. -/
def checkedAdd (w a b : Nat) : Option Nat := if a + b < 2 ^ w then some (a + b) else none

/-- The difference, unless it is negative. -/
def checkedSub (a b : Nat) : Option Nat := if b ≤ a then some (a - b) else none

/-- The product, if it is a word. -/
def checkedMul (w a b : Nat) : Option Nat := if a * b < 2 ^ w then some (a * b) else none

/-- The quotient, unless the divisor is zero. -/
def checkedDiv (a b : Nat) : Option Nat := if b = 0 then none else some (a / b)

/-- `saturating_add` on words of `w` bits. -/
def saturatingAdd (w a b : Nat) : Nat := min (a + b) (2 ^ w - 1)

/-- The product, or the largest word. -/
def saturatingMul (w a b : Nat) : Nat := min (a * b) (2 ^ w - 1)

/-- `wrapping_add` on words of `w` bits. -/
def wrappingAdd (w a b : Nat) : Nat := (a + b) % 2 ^ w

/-- The difference modulo `2 ^ w`. -/
def wrappingSub (w a b : Nat) : Nat := (a + 2 ^ w - b) % 2 ^ w

/-- A signed word of `w` bits, if the number is one. -/
def signedWord (w : Nat) (a : Int) : Option Int :=
  if -2 ^ (w - 1) ≤ a ∧ a < 2 ^ (w - 1) then some a else none

/-- The signed word of `w` bits that unchecked arithmetic leaves. -/
def wrapSigned (w : Nat) (a : Int) : Int := (a + 2 ^ (w - 1)) % 2 ^ w - 2 ^ (w - 1)

/-- The unsigned word of `w` bits that a cast keeps. -/
def truncate (w : Nat) (a : Int) : Nat := (a % 2 ^ w).toNat

variable {w a b c : Nat}

@[simp]
theorem checkedAdd_eq_some : checkedAdd w a b = some c ↔ a + b = c ∧ c < 2 ^ w := by
  unfold checkedAdd
  split <;> simp <;> grind

@[simp]
theorem checkedSub_eq_some : checkedSub a b = some c ↔ a = b + c := by
  unfold checkedSub
  split <;> simp <;> omega

@[simp]
theorem checkedMul_eq_some : checkedMul w a b = some c ↔ a * b = c ∧ c < 2 ^ w := by
  unfold checkedMul
  split <;> simp <;> grind

@[simp]
theorem signedWord_eq_some {x y : Int} :
    signedWord w x = some y ↔ x = y ∧ -2 ^ (w - 1) ≤ y ∧ y < 2 ^ (w - 1) := by
  unfold signedWord
  split <;> simp <;> grind

theorem wrappingSub_of_le (h : b ≤ a) (ha : a < 2 ^ w) : wrappingSub w a b = a - b := by
  rw [wrappingSub, show a + 2 ^ w - b = a - b + 2 ^ w by omega, Nat.add_mod_right,
    Nat.mod_eq_of_lt (by omega)]

theorem truncate_of_lt {x : Int} (h0 : 0 ≤ x) (h : x < 2 ^ w) : (truncate w x : Int) = x := by
  rw [truncate, Int.emod_eq_of_lt h0 h, Int.toNat_of_nonneg h0]

end Base
