import RelLogic.Goal.Arithmetic
import RelLogic.Session.GoalExpr

/-!
# Answers

What a session answers to its commands. An answer holds what was made or found, not how it is written.
-/

namespace RelLogic

/-- A substitution with what was to be told about it. -/
structure Solution where
  store : Subst
  resolved : List Term
  lookedUp : List Term

/-- How two terms compare: as trees, and as objects. -/
structure Comparison where
  equal : Bool
  identical : Bool

/-- How two terms compare. -/
def Term.comparison (s t : Term) : Comparison :=
  ⟨s.same t, decide (s = t)⟩

/-- What a session answers. -/
inductive Answer
  | term (t : Term)
  | items (ts : List Term)
  /-- Whether two variables are the same, their order, and whether their hashes agree. -/
  | vars (equal : Bool) (order : Ordering) (hashesAgree : Bool)
  | terms (c : Comparison)
  /-- Whether the term is an atom of that value, and the same where it is an atom at all. -/
  | atom (equal : Bool) (asAtom : Option Bool)
  /-- Two atoms, how they compare, whether their hashes agree, and how the first compares with itself. -/
  | atoms (a b : Term) (c : Comparison) (hashesAgree : Bool) (self : Comparison)
  /-- The pair and its parts, whether it equals a pair made again, itself, and the pair with the parts
  exchanged. -/
  | pair (t car cdr : Term) (again self swapped : Bool)
  | store (s : Solution)
  /-- The term that a variable is bound to, and the substitution. -/
  | binding (t? : Option Term) (s : Subst)
  /-- Whether the left equals the right, the right the left, and each of them itself. -/
  | stores (equal converse left right : Bool)
  /-- The extended substitution, and whether it equals the given one. -/
  | unified (s : Solution) (unchanged : Bool)
  | clash
  | goal (g : Goal Literal)
  | solutions (ss : List Solution)
  | numbers (ns : List Int64)

end RelLogic
