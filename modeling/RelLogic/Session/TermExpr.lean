import RelLogic.Session.Act

/-!
# Term expressions

A term expression says how to make a term from new atoms and pairs and from terms and substitutions that
have names. A name stands for one object: two uses of it share it, while each atom or list that is written
out is made anew. Parts are evaluated from left to right, and the first fault ends the evaluation.
-/

namespace RelLogic

/-! ### Names -/

/-- The terms and the substitutions that have names, the latest first; a later use of a name hides an
earlier one. -/
structure Scope where
  terms : List (String × Term) := []
  stores : List (String × Subst) := []

namespace Scope

/-- The scope in which a name stands for a term. -/
def addTerm (scope : Scope) (name : String) (t : Term) : Scope :=
  { scope with terms := (name, t) :: scope.terms }

/-- The scope in which a name stands for a substitution. -/
def addStore (scope : Scope) (name : String) (s : Subst) : Scope :=
  { scope with stores := (name, s) :: scope.stores }

/-- The term that a name stands for. -/
def term (scope : Scope) (name : String) : Build Term :=
  match scope.terms.lookup name with
  | some t => pure t
  | none => throw (.unknownName name)

/-- The substitution that a name stands for; without a name it is the empty one. -/
def store (scope : Scope) (name? : Option String) : Build Subst :=
  match name? with
  | none => pure Subst.empty
  | some name =>
    match scope.stores.lookup name with
    | some s => pure s
    | none => throw (.unknownName name)

end Scope

/-! ### Expressions -/

/-- How to make a term. -/
inductive TermExpr
  | nil
  /-- A new atom. -/
  | atom (a : Atom)
  | name (n : String)
  /-- New pairs that put items in front of a term. -/
  | chain (items : List TermExpr) (rest : TermExpr)
  /-- A new list of the signed 32-bit numbers from the first to the one before the second. -/
  | range (first stop : Int)
  /-- A new list that has one object as each of its items; a count below zero is none. -/
  | copies (count : Int) (item : TermExpr)
  /-- A term inside so many lists of one item; a depth below zero is none. -/
  | wrapped (depth : Int) (core : TermExpr)
  | part (p : Part) (whole : TermExpr)
  /-- What a variable stands for in a substitution. -/
  | lookup (store : Option String) (x : TermExpr)
  /-- What a term stands for in a substitution. -/
  | walk (store : Option String) (t : TermExpr)
  /-- A term with all its variables replaced by what they stand for in a substitution. -/
  | resolve (store : Option String) (t : TermExpr)

/-- The variable that a term is. -/
def Term.variable (t : Term) : Build Var :=
  match t.asVar? with
  | some x => pure x
  | none => throw (.notAVariable t)

/-- The signed 32-bit numbers from the first to the one before the second. -/
def Atom.range (first stop : Int) : List Atom :=
  (List.range (stop - first).toNat).map fun (i : Nat) => Atom.int .i32 (first + i)

namespace TermExpr

mutual

/-- The term that an expression makes. -/
def eval (scope : Scope) : TermExpr → Build Term
  | .nil => pure .nil
  | .atom a => Build.draw (Term.ofAtom a)
  | .name n => scope.term n
  | .chain items rest => do
    let xs ← evalAfter scope [] items
    let t ← rest.eval scope
    Build.draw (Term.chain xs t)
  | .range first stop => Build.draw (Term.ofAtoms (Atom.range first stop))
  | .copies count item => do
    let x ← item.eval scope
    Build.draw (Term.ofList (List.replicate count.toNat x))
  | .wrapped depth core => do
    let t ← core.eval scope
    Build.draw (Term.wrap depth.toNat t)
  | .part p whole => do
    let t ← whole.eval scope
    Build.ofExcept (t.part? p)
  | .lookup store x => do
    let s ← scope.store store
    let t ← x.eval scope
    let v ← t.variable
    Build.ofOption (s.lookup? v)
  | .walk store e => do
    let s ← scope.store store
    let t ← e.eval scope
    Build.ofOption (s.walk? t)
  | .resolve store e => do
    let s ← scope.store store
    let t ← e.eval scope
    Build.attempt (s.resolve? t)

/-- The terms that expressions make, after terms already made, the latest of these first. -/
def evalAfter (scope : Scope) (made : List Term) : List TermExpr → Build (List Term)
  | [] => pure made.reverse
  | e :: es => do
    let t ← e.eval scope
    evalAfter scope (t :: made) es

end

/-- The terms that expressions make, from left to right. -/
def evalAll (scope : Scope) (es : List TermExpr) : Build (List Term) :=
  evalAfter scope [] es

/-- The variable that an expression makes. -/
def evalVar (scope : Scope) (e : TermExpr) : Build Var := do
  let t ← e.eval scope
  t.variable

end TermExpr

end RelLogic
