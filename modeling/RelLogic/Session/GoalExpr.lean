import RelLogic.Goal.Relation
import RelLogic.Session.TermExpr

/-!
# Goal expressions

A goal expression says how to make a goal. Making it evaluates its terms, draws its fresh variables and
reads the lists of its relations, from left to right and parts before wholes. So a fresh variable is drawn
once for each time the goal is made, however often it is run.

A call of a relation keeps the name of the relation, its evaluated arguments and the moment at which the
call was made. Which relation has the name, and what its body makes, is asked only when the call is met in a
search.
-/

namespace RelLogic

/-- How to make a goal. -/
inductive GoalExpr
  | succeed
  | fail
  | eq (u v : TermExpr)
  | disj (g h : GoalExpr)
  | conj (g h : GoalExpr)
  | disjAll (gs : List GoalExpr)
  /-- All of the goals, level by level. -/
  | conjAll (gs : List GoalExpr)
  /-- The first goal or else the rest, to the right. -/
  | disjChain (gs : List GoalExpr)
  /-- The first goal and then the rest, to the right. -/
  | conjChain (gs : List GoalExpr)
  | member (t list : TermExpr)
  /-- A new variable is an item of both lists. -/
  | common (l₁ l₂ : TermExpr)
  /-- The given variable is an item of both lists. -/
  | commonOf (x l₁ l₂ : TermExpr)
  /-- All of the goals, in which the names stand for new variables. -/
  | fresh (names : List String) (body : List GoalExpr)
  /-- The goal of that name. -/
  | saved (name : String)
  /-- The relation of that name holds for the terms. -/
  | call (relation : String) (args : List TermExpr)

/-- A relation with names for its arguments. -/
structure Relation where
  params : List String
  body : GoalExpr

/-- A relation, by its name, that is to hold for given terms. -/
structure Call where
  relation : String
  args : List Term
  /-- The moment of the session whose names the body can use. -/
  moment : Nat

/-- The primitive goals of a session. -/
inductive Literal
  | eq (e : Equation)
  | call (c : Call)

/-- All names of a session at one moment. -/
structure Names where
  scope : Scope := {}
  /-- The goals that have names, the latest first. -/
  goals : List (String × Goal Literal) := []

/-- What a goal expression can refer to. -/
structure Env where
  /-- The moment that the calls made here keep. -/
  moment : Nat
  /-- The names that can be used here. -/
  names : Names

namespace Env

/-- The terms and the substitutions that have names. -/
def scope (env : Env) : Scope :=
  env.names.scope

/-- Makes a name stand for a new variable with that label. -/
def bindFresh (env : Env) (name : String) : Build Env := do
  let x ← Build.newVar name
  return { env with names := { env.names with scope := env.scope.addTerm name (.var x) } }

/-- The goal of that name. -/
def goal (env : Env) (name : String) : Build (Goal Literal) :=
  match env.names.goals.lookup name with
  | some g => pure g
  | none => throw (.unknownName name)

end Env

/-- A goal over equations as a goal of a session. -/
def Goal.ofEquations (g : Goal Equation) : Goal Literal :=
  g.map .eq

namespace GoalExpr

mutual

/-- The goal that an expression makes. -/
def build (env : Env) : GoalExpr → Build (Goal Literal)
  | .succeed => pure .succeed
  | .fail => pure .fail
  | .eq u v => do
    let s ← u.eval env.scope
    let t ← v.eval env.scope
    return .prim (.eq ⟨s, t⟩)
  | .disj g h => do
    let a ← g.build env
    let b ← h.build env
    return .disj a b
  | .conj g h => do
    let a ← g.build env
    let b ← h.build env
    return .conj a b
  | .disjAll gs => do
    let goals ← buildAll env gs
    return .disjAll goals
  | .conjAll gs => do
    let goals ← buildAll env gs
    return .conjAll goals
  | .disjChain gs => do
    let goals ← buildAll env gs
    return .disjChain goals
  | .conjChain gs => do
    let goals ← buildAll env gs
    return .conjChain goals
  | .member e list => do
    let t ← e.eval env.scope
    let l ← list.eval env.scope
    let g ← Build.ofExcept (Goal.member t l)
    return g.ofEquations
  | .common e₁ e₂ => do
    let l₁ ← e₁.eval env.scope
    let l₂ ← e₂.eval env.scope
    let x ← Build.newVar "v"
    let g ← Build.ofExcept (Goal.common x l₁ l₂)
    return g.ofEquations
  | .commonOf e e₁ e₂ => do
    let x ← e.evalVar env.scope
    let l₁ ← e₁.eval env.scope
    let l₂ ← e₂.eval env.scope
    let g ← Build.ofExcept (Goal.common x l₁ l₂)
    return g.ofEquations
  | .fresh names body => do
    let env' ← names.foldlM Env.bindFresh env
    let goals ← buildAll env' body
    return .conjChain goals
  | .saved name => env.goal name
  | .call name args => do
    let terms ← TermExpr.evalAll env.scope args
    return .prim (.call ⟨name, terms, env.moment⟩)

/-- The goals that expressions make, from left to right. -/
def buildAll (env : Env) : List GoalExpr → Build (List (Goal Literal))
  | [] => pure []
  | e :: es => do
    let g ← e.build env
    let gs ← buildAll env es
    return g :: gs

end

end GoalExpr

end RelLogic
