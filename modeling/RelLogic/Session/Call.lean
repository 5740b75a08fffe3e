import RelLogic.Session.GoalExpr

/-!
# Calls of relations

The body of a called relation is made anew each time the call is met in a search. So its fresh variables are
new each time, and a relation may call itself. The body can use the names that the session had when the call
was made, whatever they stand for by now, and so can the calls in it; the parameters hide names that are
spelled the same. A fault in a body, or a name that no relation has, is remembered, the call then has no
solutions, and the search goes on.
-/

namespace RelLogic

/-- What calls refer to: the relations, and the names of the session at each moment, in order. -/
structure History where
  relations : List (String × Relation)
  moments : Array Names := #[]

/-- The names at a moment; there are none at a moment that has not come. -/
def History.names (history : History) (moment : Nat) : Names :=
  history.moments[moment]?.getD {}

/-- The relation of that name. -/
def History.relation (history : History) (name : String) : Build Relation :=
  match history.relations.lookup name with
  | some r => pure r
  | none => throw (.unknownName name)

/-- The terms and the substitutions that the body of a called relation can name: the parameters stand for
the arguments. -/
def Call.scope (history : History) (c : Call) (r : Relation) : Scope :=
  (r.params.zip c.args).foldl (fun scope p => scope.addTerm p.1 p.2) (history.names c.moment).scope

/-- What the body of a called relation can refer to. -/
def Call.env (history : History) (c : Call) (r : Relation) : Env :=
  ⟨c.moment, { history.names c.moment with scope := c.scope history r }⟩

/-- Makes the body of a called relation. -/
def Call.build (history : History) (c : Call) : Build (Goal Literal) := do
  let r ← history.relation c.relation
  r.body.build (c.env history r)

/-- The search of a primitive goal. The number bounds how deep calls may be nested, and the moves of each
unification. -/
def Literal.search (history : History) : Nat → Literal → Search Act Subst
  | fuel, .eq e => fun s => liftM (e.search fuel s)
  | 0, .call _ => fun _ => Act.ofOption none
  | fuel + 1, .call c => fun s => do
    match ← (c.build history).run with
    | .ok g => g.search (Literal.search history fuel) s
    | .error f =>
      Act.note f
      return []

end RelLogic
