import RelLogic.Event
import RelLogic.Subst.Basic

/-!
# Unification

Unifying two terms under a substitution means adding bindings until both stand for the same tree. The
unifier keeps a list of equations that are still to be met. It walks both sides of the first one and makes
one move (`Move.of`): nothing if the sides agree, a binding if one of them is a variable, two equations in
place of one if both are pairs, and otherwise it gives up. There is no check whether a variable occurs in
the term it is bound to.

A substitution in which some variable stands for a term that contains it can keep the unifier busy without
end. The number given to `solve?` bounds the moves, and `none` says that they did not suffice.
-/

namespace RelLogic

/-- Two terms that are to be made equal. -/
structure Equation where
  lhs : Term
  rhs : Term
  deriving DecidableEq

/-- What is to be done about an equation whose sides have been walked. -/
inductive Move
  /-- The sides agree as they are. -/
  | agree
  /-- The variable is to be bound to the term. -/
  | bind (x : Var) (t : Term)
  /-- The two sides are pairs, whose cars and then whose cdrs are to be made equal. -/
  | split (cars cdrs : Equation)
  /-- No bindings make the sides equal. -/
  | clash
  deriving DecidableEq

/-- The move for two walked terms. One object agrees with itself; a variable on the left is bound before one
on the right. -/
def Move.of (u v : Term) : Move :=
  if u = v then .agree
  else
    match u, v with
    | .var x, _ => .bind x v
    | _, .var y => .bind y u
    | .pair _ a d, .pair _ b e => .split ⟨a, b⟩ ⟨d, e⟩
    | .atom _ a, .atom _ b => if a = b then .agree else .clash
    | _, _ => .clash

/-- How a unification ended: the events it caused in their order, and the extended substitution unless it
failed. -/
structure Outcome where
  events : List Event
  store? : Option Subst
  deriving DecidableEq

/-- The outcome with one more event before all others. -/
def Outcome.after (e : Event) (o : Outcome) : Outcome :=
  { o with events := e :: o.events }

/-- Meets the given equations one after the other, starting from a substitution, in at most the given number
of moves. -/
def solve? : Nat → Subst → List Equation → Option Outcome
  | _, s, [] => some ⟨[], some s⟩
  | 0, _, _ :: _ => none
  | n + 1, s, e :: rest =>
    match s.walk? e.lhs, s.walk? e.rhs with
    | some u, some v =>
      match Move.of u v with
      | .agree => solve? n s rest
      | .bind x t => (solve? n (s.extend x t) rest).map (Outcome.after (.extended x t))
      | .split cars cdrs => solve? n s (cars :: cdrs :: rest)
      | .clash => some ⟨[.clash u v], none⟩
    | _, _ => none

/-- Unifies two terms under a substitution. -/
def unify? (fuel : Nat) (u v : Term) (s : Subst) : Option Outcome :=
  solve? fuel s [⟨u, v⟩]

end RelLogic
