import RelLogic.Term.Same

/-!
# Substitutions

A substitution is a list of bindings of variables to terms, the latest first, with a count of them beside it.
It only ever grows at the front, so an older substitution stays a tail of every one made from it. Where a
variable is bound more than once, the latest binding counts.

Walking a term follows variables to the terms they are bound to, until it comes to a variable without a
binding or to a term that is no variable. Nothing prevents variables that are bound to each other in a ring;
a walk in such a ring has no end, and `walk?` answers `none` then.
-/

namespace RelLogic

/-- Bindings of variables to terms, the latest first, and the number of bindings made, repeated ones of one
variable included. -/
structure Subst where
  bindings : List (Var × Term)
  size : Nat
  deriving DecidableEq

namespace Subst

/-- The substitution without bindings. -/
def empty : Subst := ⟨[], 0⟩

/-- The term that a variable is bound to directly. -/
def get? (s : Subst) (x : Var) : Option Term :=
  s.bindings.lookup x

/-- The substitution with one more binding, which nothing checks. -/
def extend (s : Subst) (x : Var) (t : Term) : Subst :=
  ⟨(x, t) :: s.bindings, s.size + 1⟩

@[simp] theorem size_empty : empty.size = 0 := rfl

@[simp] theorem size_extend (s : Subst) (x : Var) (t : Term) : (s.extend x t).size = s.size + 1 := rfl

@[simp] theorem get?_empty (x : Var) : empty.get? x = none := rfl

theorem get?_extend (s : Subst) (x y : Var) (t : Term) :
    (s.extend x t).get? y = if y = x then some t else s.get? y := by
  by_cases h : y = x
  · simp [get?, extend, h]
  · have hb : (y == x) = false := by simpa using h
    simp [get?, extend, List.lookup_cons, hb, h]

/-! ### Walks -/

/-- Follows a variable along at most the given number of bindings to variables. -/
def chase? (s : Subst) : Nat → Var → Option Term
  | steps, x =>
    match s.get? x with
    | none => some (.var x)
    | some (.var y) =>
      match steps with
      | 0 => none
      | n + 1 => s.chase? n y
    | some t => some t

/-- The term that a term stands for: itself if it is no variable, else what the bindings lead to. A walk
that follows more bindings than there are goes round in a ring. -/
def walk? (s : Subst) : Term → Option Term
  | .var x => s.chase? s.bindings.length x
  | t => some t

theorem walk?_var (s : Subst) (x : Var) : s.walk? (.var x) = s.chase? s.bindings.length x := rfl

theorem walk?_of_not_var (s : Subst) {t : Term} (h : t.isVar = false) : s.walk? t = some t := by
  cases t with
  | var x => simp [Term.isVar, Term.asVar?] at h
  | _ => rfl

/-- The term that a variable stands for. -/
def lookup? (s : Subst) (x : Var) : Option Term :=
  match s.get? x with
  | none => some (.var x)
  | some t => s.walk? t

/-! ### Equality -/

/-- Whether each binding of the left, also one that a later binding hides, is what the right has for the
variable, and both have made as many bindings. -/
def same (l r : Subst) : Bool :=
  l.size == r.size && l.bindings.all fun b =>
    match r.get? b.1 with
    | some t => t.same b.2
    | none => false

end Subst

end RelLogic
