/-!
# Logic variables

A logic variable is an identity with a label. The identity is a number drawn from a supply that never gives
the same number twice; the label is what is printed. Two variables with one label are two variables.
-/

namespace RelLogic

/-- A logic variable. -/
structure Var where
  /-- The number under which the variable was drawn. -/
  id : Nat
  /-- The name that is printed for the variable. -/
  label : String
  deriving DecidableEq, Hashable

/-- Variables are ordered by their identities, and by their labels where the identities agree. -/
instance : Ord Var where
  compare x y := (compare x.id y.id).then (compare x.label y.label)

end RelLogic
