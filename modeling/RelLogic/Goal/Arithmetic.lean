import RelLogic.Goal.Basic

/-!
# Goals over numbers

Goals need not be about substitutions. Here the state is a signed 64-bit number: primitive goals add to it
or multiply it, both modulo 2⁶⁴, compare it with a bound, or repeat it. They have no other effect, so a
search over numbers is a plain function.
-/

namespace RelLogic

/-- A primitive goal over numbers. -/
inductive Arith
  | add (n : Int64)
  | mul (n : Int64)
  /-- Succeeds if the state is less than the bound. -/
  | below (n : Int64)
  /-- Succeeds as often as the count says; a count below zero is none. -/
  | copies (n : Int)

/-- The results of a primitive goal over numbers. -/
def Arith.search : Arith → Search Id Int64
  | .add n => fun x => [x + n]
  | .mul n => fun x => [x * n]
  | .below n => fun x => if x < n then [x] else []
  | .copies n => fun x => List.replicate n.toNat x

end RelLogic
