import RelLogic.Search

/-!
# Goals

A goal is an expression that stands for a search: primitive goals of a chosen kind, put together by
conjunctions and disjunctions of two or of many parts. `Goal.search` gives the search, once it is known how
the primitive goals are run.
-/

namespace RelLogic

/-- A goal over primitive goals of the type `π`. -/
inductive Goal (π : Type)
  | prim (p : π)
  | succeed
  | fail
  | disj (g h : Goal π)
  /-- Both of two goals, one after the other. -/
  | conj (g h : Goal π)
  | disjAll (gs : List (Goal π))
  /-- All of the goals, level by level. -/
  | conjAll (gs : List (Goal π))

namespace Goal

variable {π ρ : Type}

mutual

/-- The search that a goal stands for. -/
def search {m : Type → Type} [Monad m] {σ : Type} (run : π → Search m σ) : Goal π → Search m σ
  | .prim p => run p
  | .succeed => Search.succeed
  | .fail => Search.fail
  | .disj g h => Search.disj (g.search run) (h.search run)
  | .conj g h => Search.conj (g.search run) (h.search run)
  | .disjAll gs => Search.disjAll (searches run gs)
  | .conjAll gs => Search.conjAll (searches run gs)

/-- The searches that the given goals stand for. -/
def searches {m : Type → Type} [Monad m] {σ : Type} (run : π → Search m σ) :
    List (Goal π) → List (Search m σ)
  | [] => []
  | g :: gs => g.search run :: searches run gs

end

theorem searches_eq_map {m : Type → Type} [Monad m] {σ : Type} (run : π → Search m σ)
    (gs : List (Goal π)) : searches run gs = gs.map (search run) := by
  induction gs with
  | nil => rfl
  | cons g gs ih => simp [searches, ih]

mutual

/-- The goal with each primitive goal replaced. -/
def map (f : π → ρ) : Goal π → Goal ρ
  | .prim p => .prim (f p)
  | .succeed => .succeed
  | .fail => .fail
  | .disj g h => .disj (g.map f) (h.map f)
  | .conj g h => .conj (g.map f) (h.map f)
  | .disjAll gs => .disjAll (mapAll f gs)
  | .conjAll gs => .conjAll (mapAll f gs)

/-- The goals with each primitive goal replaced. -/
def mapAll (f : π → ρ) : List (Goal π) → List (Goal ρ)
  | [] => []
  | g :: gs => g.map f :: mapAll f gs

end

theorem mapAll_eq_map (f : π → ρ) (gs : List (Goal π)) : mapAll f gs = gs.map (map f) := by
  induction gs with
  | nil => rfl
  | cons g gs ih => simp [mapAll, ih]

/-- The first goal or else the rest, to the right; no goals at all fail. -/
def disjChain : List (Goal π) → Goal π
  | [] => .fail
  | [g] => g
  | g :: gs => .disj g (disjChain gs)

/-- The first goal and then the rest, to the right; no goals at all succeed. -/
def conjChain : List (Goal π) → Goal π
  | [] => .succeed
  | [g] => g
  | g :: gs => .conj g (conjChain gs)

end Goal

end RelLogic
