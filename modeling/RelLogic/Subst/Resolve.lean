import RelLogic.Subst.Basic
import RelLogic.Supply

/-!
# Resolving a term

Resolving replaces every bound variable in a term, at any depth, by what it stands for. All pairs of the
result are new, even where nothing was replaced; the atoms are those of the term.

A variable that occurs in the term it stands for has no finite resolved form. On a way down through a term
that has one, no binding is followed twice; so a way down that enters pairs through more variables than
there are bindings goes round in a ring, and the answer is `none`.
-/

namespace RelLogic

/-- A program that draws from a supply and may have no result. -/
abbrev Fresh? := StateT Supply Option

/-- A program that always has a result. -/
def Fresh.total (p : Fresh α) : Fresh? α :=
  fun σ => some (p σ)

namespace Subst

/-- Resolves a term along its spine: the resolved items already met, the latest first, are put in front of
the resolved rest. The budget is the number of variables that may still be entered on the way down. -/
def resolveAfter (s : Subst) (budget : Nat) (met : List Term) (t : Term) : Fresh? Term :=
  match t with
  | .pair _ a d => do
    let a' ← s.resolveAfter budget [] a
    s.resolveAfter budget (a' :: met) d
  | .var x =>
    match s.walk? (.var x) with
    | none => failure
    | some (.pair _ a d) =>
      match budget with
      | 0 => failure
      | n + 1 => do
        let a' ← s.resolveAfter n [] a
        s.resolveAfter n (a' :: met) d
    | some leaf => Fresh.total (Term.consAll met leaf)
  | leaf => Fresh.total (Term.consAll met leaf)
termination_by (budget, t)

/-- The term with every bound variable replaced by what it stands for. -/
def resolve? (s : Subst) (t : Term) : Fresh? Term :=
  s.resolveAfter s.bindings.length [] t

end Subst

end RelLogic
