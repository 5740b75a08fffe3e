import RelLogic.Subst.Resolve
import RelLogic.Event

/-!
# Acts

What happens in a session is an act: it draws from the supply, records events, and may have no result when
it does not end. An act also remembers the first fault that a search met on its way and went on after.
Building a term or a goal is an act that may stop at a fault (`Build`); what it drew and recorded before the
fault stays.
-/

namespace RelLogic

/-- What can be wrong with what a session is asked for. -/
inductive Fault
  /-- A term has not the shape asked for. -/
  | shape (e : ShapeError)
  /-- Nothing has the name. -/
  | unknownName (name : String)
  /-- A variable was asked for. -/
  | notAVariable (found : Term)
  /-- The text is no list template, or it asks for terms that are not given. -/
  | badTemplate (text : String)

/-- The state of an act. -/
structure Progress where
  supply : Supply
  /-- The first fault that a search went on after. -/
  fault? : Option Fault := none

/-- A program of a session. -/
abbrev Act := StateT Progress Traced

/-- A program of a session that may stop at a fault. -/
abbrev Build := ExceptT Fault Act

namespace Act

/-- Draws from the supply. -/
def draw (p : Fresh α) : Act α := fun st past =>
  let (a, σ) := p st.supply
  some ((a, { st with supply := σ }), past)

/-- Draws from the supply for a result that may not exist. -/
def attempt (p : Fresh? α) : Act α := fun st past =>
  match p st.supply with
  | some (a, σ) => some ((a, { st with supply := σ }), past)
  | none => none

/-- A result that may not exist. -/
def ofOption (a? : Option α) : Act α := fun st past =>
  match a? with
  | some a => some ((a, st), past)
  | none => none

/-- Draws a variable and records that. -/
def newVar (label : String) : Act Var := fun st past =>
  let (x, σ) := Var.fresh label st.supply
  some ((x, { st with supply := σ }), .created x :: past)

/-- Remembers a fault, unless there was one before. -/
def note (f : Fault) : Act Unit := fun st past =>
  let st' :=
    match st.fault? with
    | some _ => st
    | none => { st with fault? := some f }
  some (((), st'), past)

end Act

/-- Binds a variable in a substitution and records that. -/
def Subst.record (s : Subst) (x : Var) (t : Term) : Traced Subst := do
  Traced.record (.extended x t)
  return s.extend x t

namespace Build

/-- Draws from the supply. -/
def draw (p : Fresh α) : Build α :=
  ExceptT.lift (Act.draw p)

/-- Draws from the supply for a result that may not exist. -/
def attempt (p : Fresh? α) : Build α :=
  ExceptT.lift (Act.attempt p)

/-- A result that may not exist. -/
def ofOption (a? : Option α) : Build α :=
  ExceptT.lift (Act.ofOption a?)

/-- Draws a variable and records that. -/
def newVar (label : String) : Build Var :=
  ExceptT.lift (Act.newVar label)

/-- A result or the fault in its place. -/
def ofExcept (r : Except ShapeError α) : Build α :=
  match r with
  | .ok a => pure a
  | .error e => throw (.shape e)

end Build

end RelLogic
