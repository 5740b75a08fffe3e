import RelLogic.Goal.Arithmetic
import RelLogic.Session.GoalExpr

/-!
# Commands

What a session can be asked to do: make terms, substitutions and goals, compare them, read what is in them,
unify two terms, and search for the solutions of a goal. A command refers to what it works on by
expressions; a substitution is named, and without a name it is the empty one.
-/

namespace RelLogic

/-- What is to be told about a substitution besides its bindings. -/
structure Report where
  /-- The terms that are to be resolved in it. -/
  resolved : List TermExpr := []
  /-- The variables that are to be looked up in it. -/
  lookedUp : List TermExpr := []

/-- What a session can be asked to do. -/
inductive Command
  | declare (label : String)
  | compareVars (x y : TermExpr)
  | term (e : TermExpr)
  /-- Make a list from a template and the terms it names by number. -/
  | template (text : String) (items : List TermExpr)
  | items (e : TermExpr)
  | compareTerms (e₁ e₂ : TermExpr)
  /-- Compare a term with the value of an atom. -/
  | compareAtom (e : TermExpr) (a : Atom)
  /-- Compare two new atoms. -/
  | compareAtoms (a b : Atom)
  /-- Make a pair, and compare it with others made of the same parts. -/
  | pair (car cdr : TermExpr)
  /-- Extend a substitution by bindings, one after the other. -/
  | extend (store : Option String) (bindings : List (TermExpr × TermExpr)) (report : Report)
  /-- Bind the first so many of the variables to the terms beside them, after evaluating all the variables
  and then all the terms. -/
  | bindFirst (count : Nat) (vars terms : List TermExpr) (report : Report)
  | get (store : Option String) (x : TermExpr)
  | compareStores (l r : Option String)
  | unify (u v : TermExpr) (store : Option String) (report : Report)
  | goal (g : GoalExpr)
  /-- Search for the solutions of a goal from the empty substitution, and record their number if asked to.
  -/
  | run (g : GoalExpr) (recorded : Bool) (report : Report)
  /-- Search for the solutions of a goal from a substitution. -/
  | apply (g : GoalExpr) (store : Option String) (report : Report)
  | count (g : Goal Arith) (start : Int64)

end RelLogic
