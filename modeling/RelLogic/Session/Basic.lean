import RelLogic.Session.Answer
import RelLogic.Session.Call
import RelLogic.Session.Command
import RelLogic.Template

/-!
# Sessions

A session keeps a supply and gives names to terms, substitutions and goals. It is asked to carry out
commands, one after the other, and answers each of them. What a command makes can be given a name, which
later commands can use. A command that fails names nothing, but what it drew from the supply stays drawn.
-/

namespace RelLogic

/-- The state of a session. -/
structure Session where
  /-- The relations, and the names as they were before each earlier command. -/
  history : History
  /-- The names as they are now. -/
  names : Names := {}
  supply : Supply := {}

/-- The terms and the substitutions that have names. -/
def Session.scope (session : Session) : Scope :=
  session.names.scope

/-- The history up to now, the present names included. -/
def Session.present (session : Session) : History :=
  { session.history with moments := session.history.moments.push session.names }

/-- The session in which the terms and the substitutions have other names. -/
def Session.withScope (session : Session) (scope : Scope) : Session :=
  { session with names := { session.names with scope := scope } }

/-- Gives a name to a new variable. -/
def Session.addVar (session : Session) (name label : String) : Session :=
  let (x, σ) := Var.fresh label session.supply
  { session.withScope (session.scope.addTerm name (.var x)) with supply := σ }

/-- A session with the given relations and variables, each variable by its name and its label. -/
def Session.start (relations : List (String × Relation)) (vars : List (String × String)) : Session :=
  vars.foldl (fun session x => session.addVar x.1 x.2) { history := { relations := relations } }

/-- What a goal expression of a command can refer to. -/
def Session.env (session : Session) : Env :=
  ⟨session.history.moments.size, session.names⟩

/-- The name of the solution with a number. -/
def solutionName (name : String) (i : Nat) : String :=
  name ++ toString i

/-- Gives a name to what an answer holds. The solutions of a search get the name with their numbers from
zero on. -/
def Session.save (session : Session) (name : String) : Answer → Session
  | .term t | .pair t _ _ _ _ _ => session.withScope (session.scope.addTerm name t)
  | .store s | .unified s _ => session.withScope (session.scope.addStore name s.store)
  | .goal g => { session with names := { session.names with goals := (name, g) :: session.names.goals } }
  | .solutions ss =>
    session.withScope
      (ss.zipIdx.foldl (fun scope p => scope.addStore (solutionName name p.2) p.1.store) session.scope)
  | _ => session

/-- Resolves and looks up in a substitution what a report asks for. -/
def Report.tell (scope : Scope) (report : Report) (s : Subst) : Build Solution := do
  let ts ← TermExpr.evalAll scope report.resolved
  let resolved ← ts.mapM fun t => Build.attempt (s.resolve? t)
  let xs ← report.lookedUp.mapM (TermExpr.evalVar scope)
  let lookedUp ← xs.mapM fun x => Build.ofOption (s.lookup? x)
  return ⟨s, resolved, lookedUp⟩

/-- Adds one binding to a substitution. -/
def Scope.extendBy (scope : Scope) (s : Subst) (b : TermExpr × TermExpr) : Build Subst := do
  let x ← b.1.evalVar scope
  let t ← b.2.eval scope
  s.record x t

/-- Searches for the solutions of a goal, and reports the first fault that the search went on after. -/
def Session.search (session : Session) (fuel : Nat) (g : Goal Literal) (s : Subst) (recorded : Bool) :
    Build (List Subst) := do
  let found ← (g.search (Literal.search session.present fuel) s : Act (List Subst))
  if recorded then
    Traced.record (.solutions found.length)
  match (← getThe Progress).fault? with
  | some f => throw f
  | none => return found

/-- Carries out a command; the number bounds each of its searches and unifications. -/
def Session.answer (session : Session) (fuel : Nat) : Command → Build Answer
  | .declare label => do
    let x ← Build.newVar label
    return .term (.var x)
  | .compareVars e₁ e₂ => do
    let x ← e₁.evalVar session.scope
    let y ← e₂.evalVar session.scope
    return .vars (decide (x = y)) (compare x y) (hash x == hash y)
  | .term e => do
    let t ← e.eval session.scope
    return .term t
  | .template text es => do
    let items ← TermExpr.evalAll session.scope es
    match Template.ofString? text with
    | none => throw (.badTemplate text)
    | some template =>
      match ← Build.draw (template.fill? items) with
      | some t => return .term t
      | none => throw (.badTemplate text)
  | .items e => do
    let t ← e.eval session.scope
    let ts ← Build.ofExcept t.items?
    return .items ts
  | .compareTerms e₁ e₂ => do
    let s ← e₁.eval session.scope
    let t ← e₂.eval session.scope
    return .terms (s.comparison t)
  | .compareAtom e a => do
    let t ← e.eval session.scope
    match t with
    | .atom _ b => return .atom (decide (b = a)) (some (decide (b = a)))
    | _ => return .atom false none
  | .compareAtoms a b => do
    let s ← Build.draw (Term.ofAtom a)
    let t ← Build.draw (Term.ofAtom b)
    return .atoms s t (s.comparison t) (hash a == hash b) (s.comparison s)
  | .pair e₁ e₂ => do
    let a ← e₁.eval session.scope
    let d ← e₂.eval session.scope
    let a' ← e₁.eval session.scope
    let d' ← e₂.eval session.scope
    let t ← Build.draw (Term.cons a d)
    return .pair t a d (a.same a' && d.same d') (a.same a && d.same d) (a.same d && d.same a)
  | .extend store bindings report => do
    let s ← session.scope.store store
    let s' ← bindings.foldlM session.scope.extendBy s
    let solution ← report.tell session.scope s'
    return .store solution
  | .bindFirst count vars terms report => do
    let xs ← vars.mapM (TermExpr.evalVar session.scope)
    let ts ← TermExpr.evalAll session.scope terms
    let s ← ((xs.zip ts).take count).foldlM (fun s b => s.record b.1 b.2) Subst.empty
    let solution ← report.tell session.scope s
    return .store solution
  | .get store e => do
    let s ← session.scope.store store
    let x ← e.evalVar session.scope
    return .binding (s.get? x) s
  | .compareStores l r => do
    let s ← session.scope.store l
    let t ← session.scope.store r
    return .stores (s.same t) (t.same s) (s.same s) (t.same t)
  | .unify e₁ e₂ store report => do
    let u ← e₁.eval session.scope
    let v ← e₂.eval session.scope
    let s ← session.scope.store store
    let found ← (Equation.search fuel ⟨u, v⟩ s : Traced (List Subst))
    match found with
    | [] => return .clash
    | s' :: _ =>
      let solution ← report.tell session.scope s'
      return .unified solution (s'.same s)
  | .goal e => do
    let g ← e.build session.env
    return .goal g
  | .run e recorded report => do
    let g ← e.build session.env
    let found ← session.search fuel g Subst.empty recorded
    let solutions ← found.mapM (report.tell session.scope)
    return .solutions solutions
  | .apply e store report => do
    let g ← e.build session.env
    let s ← session.scope.store store
    let found ← session.search fuel g s false
    let solutions ← found.mapM (report.tell session.scope)
    return .solutions solutions
  | .count g start => return .numbers (g.search Arith.search start)

/-- The answer to a command or the fault in its place, and the events it caused, in their order. -/
structure Reply where
  result : Except Fault Answer
  events : List Event

/-- Carries out a command and gives what it made the name, if there is one. -/
def Session.perform (session : Session) (fuel : Nat) (c : Command) (name? : Option String) :
    Option (Reply × Session) :=
  match (session.answer fuel c).run ⟨session.supply, none⟩ [] with
  | none => none
  | some ((result, progress), past) =>
    let session' := { session with history := session.present, supply := progress.supply }
    let session'' :=
      match result, name? with
      | .ok a, some name => session'.save name a
      | _, _ => session'
    some (⟨result, past.reverse⟩, session'')

end RelLogic
