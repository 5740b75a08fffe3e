import RelLogic.Term.Basic

/-!
# The supply of new objects

Variables and objects are made from a supply: the number of the next variable and the serial number of the
next construction. A drawn number is never drawn again, so a new variable differs from all earlier ones and
a new atom or pair is the same object as no earlier one. The constructions are programs over the supply
(`Fresh`).
-/

namespace RelLogic

/-- The numbers that have not been given out yet: those from the given ones on. -/
structure Supply where
  /-- The identity of the next variable. -/
  nextVar : Nat := 0
  /-- The serial number of the next atom or pair. -/
  nextSerial : Nat := 0

/-- A program that draws from a supply. -/
abbrev Fresh := StateM Supply

/-- Draws a variable with the given label. -/
def Var.fresh (label : String) : Fresh Var :=
  fun σ => (⟨σ.nextVar, label⟩, { σ with nextVar := σ.nextVar + 1 })

/-- Draws a serial number. -/
def Fresh.serial : Fresh Nat :=
  fun σ => (σ.nextSerial, { σ with nextSerial := σ.nextSerial + 1 })

namespace Term

/-- A new atom. -/
def ofAtom (a : Atom) : Fresh Term := do
  let i ← Fresh.serial
  return .atom i a

/-- A new pair. -/
def cons (car cdr : Term) : Fresh Term := do
  let i ← Fresh.serial
  return .pair i car cdr

/-- New pairs that put the given items in front of a term, the first item nearest to it. -/
def consAll (items : List Term) (rest : Term) : Fresh Term :=
  match items with
  | [] => return rest
  | x :: xs => do
    let t ← cons x rest
    consAll xs t

/-- New pairs for the given items in their order, ending in the given term. -/
def chain (items : List Term) (rest : Term) : Fresh Term :=
  consAll items.reverse rest

/-- A new proper list of the given items. -/
def ofList (items : List Term) : Fresh Term :=
  chain items .nil

/-- New atoms for the given values, after terms already made, the latest of these first. -/
def atomsAfter (made : List Term) (values : List Atom) : Fresh (List Term) :=
  match values with
  | [] => return made.reverse
  | a :: rest => do
    let t ← ofAtom a
    atomsAfter (t :: made) rest

/-- A new proper list of new atoms. -/
def ofAtoms (values : List Atom) : Fresh Term := do
  let items ← atomsAfter [] values
  ofList items

/-- A term wrapped in a list of one item, as many times as the number says. -/
def wrap : Nat → Term → Fresh Term
  | 0, t => return t
  | n + 1, t => do
    let t' ← cons t .nil
    wrap n t'

end Term

end RelLogic
