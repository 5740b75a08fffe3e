import RelLogic.Goal.Relation

/-!
# Goals with relations on lists

A goal expression is a goal whose primitive goals are clauses: an equation, a term that is an item of a list, or a
variable that is an item of two lists.  Making the goal (`Goal.expand`) replaces every clause by the goal over
equations that stands for it, from left to right, and is refused at the first term that is no proper list.

`Goal.ind` is induction on goals with one case for each way to make a goal.
-/

namespace RelLogic

/-- A primitive part of a goal expression. -/
inductive Clause
  | eq (u v : Term)
  /-- A term equals an item of a list. -/
  | member (t list : Term)
  /-- A variable equals an item of the first list and an item of the second. -/
  | common (x : Var) (l₁ l₂ : Term)

/-- The goal over equations that a clause stands for. -/
def Clause.goal : Clause → Except ShapeError (Goal Equation)
  | .eq u v => .ok (.prim ⟨u, v⟩)
  | .member t list => Goal.member t list
  | .common x l₁ l₂ => Goal.common x l₁ l₂

namespace Goal

variable {π ρ : Type}

/-- Induction on goals, with a hypothesis for each of the parts of a goal. -/
theorem ind {motive : Goal π → Prop} (prim : ∀ p, motive (.prim p)) (succeed : motive .succeed)
    (fail : motive .fail) (disj : ∀ g h, motive g → motive h → motive (.disj g h))
    (conj : ∀ g h, motive g → motive h → motive (.conj g h))
    (disjAll : ∀ gs, (∀ g ∈ gs, motive g) → motive (.disjAll gs))
    (conjAll : ∀ gs, (∀ g ∈ gs, motive g) → motive (.conjAll gs)) (g : Goal π) : motive g :=
  @Goal.rec π motive (fun gs => ∀ g ∈ gs, motive g) prim succeed fail disj conj disjAll conjAll nofun
    (fun _ _ hg hgs => List.forall_mem_cons.2 ⟨hg, hgs⟩) g

mutual

/-- The goal in which each primitive goal is replaced by another goal, unless one of them is refused. -/
def expand (f : π → Except ShapeError (Goal ρ)) : Goal π → Except ShapeError (Goal ρ)
  | .prim p => f p
  | .succeed => .ok .succeed
  | .fail => .ok .fail
  | .disj g h => do
    let g' ← g.expand f
    let h' ← h.expand f
    return .disj g' h'
  | .conj g h => do
    let g' ← g.expand f
    let h' ← h.expand f
    return .conj g' h'
  | .disjAll gs => do
    let gs' ← expandAll f gs
    return .disjAll gs'
  | .conjAll gs => do
    let gs' ← expandAll f gs
    return .conjAll gs'

/-- The goals in which each primitive goal is replaced, from left to right. -/
def expandAll (f : π → Except ShapeError (Goal ρ)) : List (Goal π) → Except ShapeError (List (Goal ρ))
  | [] => .ok []
  | g :: gs => do
    let g' ← g.expand f
    let gs' ← expandAll f gs
    return g' :: gs'

end

/-- The variable `x` is an item of `(true false)`, and then it is `false` or anything. -/
def sample : Goal Clause :=
  .conjAll [
    .prim (.member (.var ⟨0, "x"⟩) (.pair 3 (.atom 0 (.bool true)) (.pair 2 (.atom 1 (.bool false)) .nil))),
    .disjAll [.prim (.eq (.var ⟨0, "x"⟩) (.atom 4 (.bool false))), .succeed]]

/-- A step that can be refused gives a result only if both its parts do. -/
theorem exists_of_bind_eq_ok {α β : Type} {x : Except ShapeError α} {f : α → Except ShapeError β} {b : β}
    (h : (x >>= f) = .ok b) : ∃ a, x = .ok a ∧ f a = .ok b := by
  cases x with
  | error e => cases h
  | ok a => exact ⟨a, rfl, h⟩

end Goal

end RelLogic
