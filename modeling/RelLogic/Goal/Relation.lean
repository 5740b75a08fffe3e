import RelLogic.Goal.Basic
import RelLogic.Unify

/-!
# Relations on terms

The primitive goals over substitutions are equations. From them come the goals that a term is an item of a
list and that a variable is an item of two lists. A list is read when the goal is made, as it stands: a term
that is no proper list is refused at once, and a variable is not looked up.
-/

namespace RelLogic

/-- The search of an equation: at most one result, from the unifier with the given number of moves. -/
def Equation.search (fuel : Nat) (e : Equation) : Search Traced Subst := fun s past =>
  match unify? fuel e.lhs e.rhs s with
  | some o => some (o.store?.toList, o.events.reverse ++ past)
  | none => none

namespace Goal

/-- The goal that a term equals some item of a list, one item after the other. -/
def member (t list : Term) : Except ShapeError (Goal Equation) := do
  let items ← list.items?
  return .disjAll (items.map fun item => .prim ⟨t, item⟩)

/-- The goal that a variable equals an item of the first list and an item of the second. -/
def common (x : Var) (l₁ l₂ : Term) : Except ShapeError (Goal Equation) := do
  let g₁ ← member (.var x) l₁
  let g₂ ← member (.var x) l₂
  return .conj g₁ g₂

end Goal

end RelLogic
