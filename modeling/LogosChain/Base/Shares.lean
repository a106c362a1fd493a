import Mathlib.Algebra.Ring.Nat
import Mathlib.Algebra.BigOperators.Group.List.Basic

/-!
# Sharing a pool

Parties take their shares of a pool one after the other. The shares never get smaller, they differ
by one at most, and the last party takes all that is left.
-/

namespace Base

/-- Each of the parties takes an equal part of what is left, rounded down. -/
def shares (pool parts : Nat) : Nat → List Nat
  | 0 => []
  | count + 1 => pool / parts :: shares (pool - pool / parts) (parts - 1) count

variable {pool parts count : Nat}

/-- The next share is an equal part of what is left. -/
theorem shares_succ (pool parts count : Nat) : shares pool parts (count + 1) =
    shares pool parts count ++ [(pool - (shares pool parts count).sum) / (parts - count)] := by
  induction count generalizing pool parts with
  | zero => simp [shares]
  | succ count ih =>
    grind [shares]

example : shares 11 4 4 = [2, 3, 3, 3] := rfl

end Base
