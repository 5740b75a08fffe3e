import RelLogic.Supply

/-!
# List templates

A template is a short way to write a list of given terms: `0,1;2` puts the terms with the numbers 0 and 1 in
front of the term with the number 2, and a group in parentheses is a list inside the list, as in `0,(1,2)`.
So a group is read by the rule for templates where a comma or the end follows it.

What stands next to a semicolon is an operand, and the rule for operands is another one: `()` is the empty
list, a single operand in parentheses is itself, and two operands in parentheses are the two parts of one
pair. Hence `(0,1),2` has the list of 0 and 1 as its first item, while `(0,1);2` has their pair. A group
with more operands is no term. A group before a comma has to be made up like a group of operands, although
it is read as a list: `(0;1),2` is no template, while `2,(0;1)` is one.
-/

namespace RelLogic

/-! ### Pieces -/

/-- A piece of a written template. -/
inductive Piece
  /-- The number of a given term. -/
  | item (n : Nat)
  | comma
  | semicolon
  /-- What stands between two parentheses. -/
  | group (ps : List Piece)

namespace Piece

/-- Reads one character. The stack holds the pieces of the groups that are still open, the innermost group
and the latest piece first. -/
def step (stack : List (List Piece)) (c : Char) : Option (List (List Piece)) :=
  match c, stack with
  | '(', _ => some ([] :: stack)
  | ')', ps :: outer :: rest => some ((.group ps.reverse :: outer) :: rest)
  | ',', ps :: rest => some ((.comma :: ps) :: rest)
  | ';', ps :: rest => some ((.semicolon :: ps) :: rest)
  | _, ps :: rest => if c.isDigit then some ((.item (c.toNat - '0'.toNat) :: ps) :: rest) else none
  | _, [] => none

/-- The pieces of a written template: digits, commas, semicolons and groups. -/
def ofString? (s : String) : Option (List Piece) :=
  match s.toList.foldlM step [[]] with
  | some [ps] => some ps.reverse
  | _ => none

/-- Whether the last piece is a comma. -/
def endsInComma (ps : List Piece) : Bool :=
  match ps.getLast? with
  | some .comma => true
  | _ => false

end Piece

/-! ### Templates -/

/-- A term with places for given terms. -/
inductive Template
  | nil
  /-- The given term of that number. -/
  | item (n : Nat)
  | pair (car cdr : Template)

/-- What an operand stands for. -/
inductive Operand
  | term (t : Template)
  /-- A group of operands that makes no term. -/
  | group

namespace Operand

/-- The term that an operand stands for. -/
def term? : Operand → Option Template
  | .term t => some t
  | .group => none

/-- What a group of operands stands for. -/
def ofGroup (ps : List Piece) : List Operand → Operand
  | [] => .term .nil
  | [o] => if Piece.endsInComma ps then .group else o
  | [.term a, .term d] => .term (.pair a d)
  | _ => .group

mutual

/-- A piece read as an operand. -/
def ofPiece? : Piece → Option Operand
  | .item n => some (.term (.item n))
  | .group ps => do
    let os ← ofPieces? ps
    return ofGroup ps os
  | .comma | .semicolon => none

/-- Operands with commas between them, and possibly one more after the last. -/
def ofPieces? : List Piece → Option (List Operand)
  | [] => some []
  | [p] => do
    let o ← ofPiece? p
    return [o]
  | p :: .comma :: ps => do
    let o ← ofPiece? p
    let os ← ofPieces? ps
    return o :: os
  | _ => none

end

end Operand

namespace Template

/-- Pieces read as a list. -/
def ofPieces? : List Piece → Option Template
  | [] => some .nil
  | [.group ps] => do
    let inner ← ofPieces? ps
    return .pair inner .nil
  | [p] => do
    let o ← Operand.ofPiece? p
    let t ← o.term?
    return .pair t .nil
  | [p, .semicolon, q] => do
    let o ← Operand.ofPiece? p
    let a ← o.term?
    let o' ← Operand.ofPiece? q
    let d ← o'.term?
    return .pair a d
  | .group ps :: .comma :: rest => do
    let _ ← Operand.ofPieces? ps
    let inner ← ofPieces? ps
    let t ← ofPieces? rest
    return .pair inner t
  | p :: .comma :: rest => do
    let o ← Operand.ofPiece? p
    let a ← o.term?
    let t ← ofPieces? rest
    return .pair a t
  | _ => none

/-- The template that a text writes. -/
def ofString? (s : String) : Option Template := do
  let ps ← Piece.ofString? s
  ofPieces? ps

/-- The term that the template makes of the given terms, if it asks for no others. -/
def fill? (items : List Term) : Template → Fresh (Option Term)
  | .nil => return some .nil
  | .item n => return items[n]?
  | .pair a d => do
    match ← fill? items a, ← fill? items d with
    | some car, some cdr =>
      let t ← Term.cons car cdr
      return some t
    | _, _ => return none

end Template

end RelLogic
