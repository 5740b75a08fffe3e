import RelLogic.Atom
import RelLogic.Var

/-!
# Symbolic terms

A term is the empty list, an atom, a logic variable, or a pair of two terms. As in every language of
symbolic expressions there are two equalities. Terms have the same structure when they are the same tree
(`Term.same`); they are the same object when they were also built by the same act of construction. For the
second one, each atom and each pair carries the serial number of the construction that made it, and being
the same object is `=`.

A proper list is a chain of pairs that ends in the empty list. `Term.spine` follows such a chain,
`Term.items?` reads a proper list, and `ShapeError` says what is wrong with a term that has not the shape
asked for.
-/

namespace RelLogic

/-- A symbolic term. -/
inductive Term
  /-- The empty list, which has no parts and is always the same object. -/
  | nil
  /-- An atom, with the serial number of its construction. -/
  | atom (serial : Nat) (value : Atom)
  /-- A logic variable, which is the same object wherever it stands. -/
  | var (x : Var)
  /-- A pair, with the serial number of its construction. -/
  | pair (serial : Nat) (car cdr : Term)

namespace Term

/-! ### Being the same object -/

/-- Decides whether two terms are the same object. Serial numbers are compared before parts, so different
objects are told apart at the first look, and an object is never searched to find that it is itself. -/
def decEq : (s t : Term) → Decidable (s = t)
  | .nil, .nil => isTrue rfl
  | .atom i a, .atom j b =>
    if h : i = j ∧ a = b then isTrue (by rw [h.1, h.2]) else isFalse (by simpa using h)
  | .var x, .var y => if h : x = y then isTrue (by rw [h]) else isFalse (by simpa using h)
  | .pair i a d, .pair j b e =>
    if hi : i = j then
      match withPtrEqDecEq a b fun _ => decEq a b with
      | isTrue ha =>
        match withPtrEqDecEq d e fun _ => decEq d e with
        | isTrue hd => isTrue (by rw [hi, ha, hd])
        | isFalse hd => isFalse (by simp [hd])
      | isFalse ha => isFalse (by simp [ha])
    else isFalse (by simp [hi])
  | .nil, .atom _ _ | .nil, .var _ | .nil, .pair _ _ _ => isFalse nofun
  | .atom _ _, .nil | .atom _ _, .var _ | .atom _ _, .pair _ _ _ => isFalse nofun
  | .var _, .nil | .var _, .atom _ _ | .var _, .pair _ _ _ => isFalse nofun
  | .pair _ _ _, .nil | .pair _ _ _, .atom _ _ | .pair _ _ _, .var _ => isFalse nofun

instance : DecidableEq Term :=
  fun s t => withPtrEqDecEq s t fun _ => decEq s t

/-! ### Parts -/

/-- The variable that a term is, if it is one. -/
def asVar? : Term → Option Var
  | .var x => some x
  | _ => none

/-- The two parts of a term that is a pair. -/
def asPair? : Term → Option (Term × Term)
  | .pair _ a d => some (a, d)
  | _ => none

/-- Whether a term is the empty list. -/
def isNil : Term → Bool
  | .nil => true
  | _ => false

/-- Whether a term is a variable. -/
def isVar (t : Term) : Bool :=
  t.asVar?.isSome

/-- Whether a term is a pair. -/
def isPair (t : Term) : Bool :=
  t.asPair?.isSome

/-- The number of objects in the tree of a term, each counted as often as it occurs. -/
def nodes : Term → Nat
  | .pair _ a d => a.nodes + d.nodes + 1
  | _ => 1

theorem nodes_pos (t : Term) : 0 < t.nodes := by
  cases t <;> simp [nodes]

/-! ### Spines -/

/-- Puts the items of a spine after items already met, the latest of these first. -/
def spineAfter (met : List Term) : Term → List Term × Term
  | .pair _ a d => d.spineAfter (a :: met)
  | t => (met.reverse, t)

/-- The items met along the cdrs of a term, and the term, no pair, at which the cdrs end. -/
def spine (t : Term) : List Term × Term :=
  t.spineAfter []

theorem spineAfter_eq (met : List Term) (t : Term) :
    t.spineAfter met = (met.reverse ++ t.spine.1, t.spine.2) := by
  induction t generalizing met with
  | pair i a d _ ih =>
    simp only [spine, spineAfter]
    rw [ih (a :: met), ih [a]]
    simp
  | _ => simp [spine, spineAfter]

theorem spine_pair (i : Nat) (a d : Term) : (pair i a d).spine = (a :: d.spine.1, d.spine.2) := by
  simp [spine, spineAfter, spineAfter_eq [a]]

end Term

/-! ### Terms of the wrong shape -/

/-- The two parts of a pair that can be asked for. -/
inductive Part
  | car
  | cdr
  deriving DecidableEq

/-- The name of a part. -/
def Part.name : Part → String
  | .car => "car"
  | .cdr => "cdr"

/-- What is wrong with a term that has not the shape asked for. -/
inductive ShapeError
  /-- A part of a pair was asked for, and the term is no pair. -/
  | notAPair (part : Part) (found : Term)
  /-- The items of a list were asked for, and the cdrs end in a term other than the empty list. -/
  | improperList (found : Term)
  deriving DecidableEq

namespace Term

/-- The given part of a pair. -/
def part? (p : Part) : Term → Except ShapeError Term
  | .pair _ a d =>
    match p with
    | .car => .ok a
    | .cdr => .ok d
  | t => .error (.notAPair p t)

/-- The items of a proper list; of any other term, the end of its spine is reported. -/
def items? (t : Term) : Except ShapeError (List Term) :=
  match t.spine with
  | (xs, .nil) => .ok xs
  | (_, rest) => .error (.improperList rest)

theorem items?_nil : nil.items? = .ok [] := rfl

/-- A pair is a proper list when its cdr is one, and its items are then the car and those of the cdr. -/
theorem items?_pair (i : Nat) (a d : Term) : (pair i a d).items? = d.items?.map (a :: ·) := by
  rcases h : d.spine with ⟨xs, rest⟩
  cases rest <;> simp [items?, spine_pair, h, Except.map]

end Term

end RelLogic
