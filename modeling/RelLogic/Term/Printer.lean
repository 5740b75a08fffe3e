import RelLogic.Term.Basic
import RelLogic.Text.Quoted

/-!
# The written form of terms

Terms are written in list notation. The empty list is `()`; the items of a list stand between parentheses
with single blanks between them, and ` . ` comes before an end that is not the empty list. Texts and
characters are quoted, numbers are decimal, and a variable is written as its bare label.

The writer appends to a text, so a list is written from left to right and its length costs no depth.
`Term.write_eq` says that what was written before does not matter.
-/

namespace RelLogic

/-- The written form of an atom. -/
def Atom.render : Atom → String
  | .bool b => if b then "true" else "false"
  | .int _ n => toString n
  | .char c => Text.quotedChar c
  | .text s => Text.quoted s

namespace Term

mutual

/-- Appends the written form of a term to a text. -/
def write (out : String) : Term → String
  | .nil => out ++ "()"
  | .atom _ a => out ++ a.render
  | .var x => out ++ x.label
  | .pair _ a d => writeRest (write (out ++ "(") a) d ++ ")"

/-- Appends what follows the first item of a list, without the closing parenthesis. -/
def writeRest (out : String) : Term → String
  | .nil => out
  | .atom _ a => out ++ " . " ++ a.render
  | .var x => out ++ " . " ++ x.label
  | .pair _ a d => writeRest (write (out ++ " ") a) d

end

/-- The written form of a term. -/
def render (t : Term) : String :=
  write "" t

/-- The written form of a pair of terms without the parentheses around it. -/
def openRender (car cdr : Term) : String :=
  writeRest (write "" car) cdr

/-! ### Writing appends -/

mutual

/-- Writing a term appends its written form, whatever stands before it. -/
theorem write_eq (out : String) : (t : Term) → write out t = out ++ t.render
  | .nil => by simp [render, write]
  | .atom _ a => by simp [render, write]
  | .var x => by simp [render, write]
  | .pair _ a d => by
    simp only [render, write]
    rw [write_eq (out ++ "(") a, write_eq ("" ++ "(") a, writeRest_eq (out ++ "(" ++ a.render) d,
      writeRest_eq ("" ++ "(" ++ a.render) d]
    simp [String.append_assoc]

/-- Writing the rest of a list appends the same text, whatever stands before it. -/
theorem writeRest_eq (out : String) : (t : Term) → writeRest out t = out ++ writeRest "" t
  | .nil => by simp [writeRest]
  | .atom _ a => by simp [writeRest, String.append_assoc]
  | .var x => by simp [writeRest, String.append_assoc]
  | .pair _ a d => by
    simp only [writeRest]
    rw [write_eq (out ++ " ") a, write_eq ("" ++ " ") a, writeRest_eq (out ++ " " ++ a.render) d,
      writeRest_eq ("" ++ " " ++ a.render) d]
    simp [String.append_assoc]

end

end Term

/-! ### Reports of wrong shapes -/

namespace ShapeError

/-- The sentence that reports a wrong shape. -/
def message : ShapeError → String
  | .notAPair p t => "`" ++ p.name ++ "` expects a pair, found " ++ t.render
  | .improperList t => "expected a proper list, found tail " ++ t.render

/-- The written form of the error as a record of its fields. -/
def render : ShapeError → String
  | .notAPair p t => "NotAPair \x7b operation: \"" ++ p.name ++ "\", found: " ++ t.render ++ " \x7d"
  | .improperList t => "ImproperList \x7b found: " ++ t.render ++ " \x7d"

end ShapeError

end RelLogic
