/-!
# Searches and their combinators

A search takes a state to all the states in which it succeeds, in order and with repetitions. Searches are
combined without regard to what a state is, and run in any monad, so that what one of them does besides -
draw from a supply, record events - happens in a fixed order:

* a disjunction sends the same state through each of its parts, one after the other;
* a conjunction sends the state through its first part to the end, and then each result through the second;
* a conjunction of many parts goes level by level: all states pass one part before any of them meets the
  next.
-/

namespace RelLogic

/-- A search over states, in a monad. -/
abbrev Search (m : Type → Type) (σ : Type) := σ → m (List σ)

namespace Search

variable {m : Type → Type} [Monad m] {σ : Type}

/-- Succeeds once and leaves the state as it is. -/
def succeed : Search m σ :=
  fun s => pure [s]

/-- Never succeeds. -/
def fail : Search m σ :=
  fun _ => pure []

/-- Sends each of the given states through a search, in order, and gathers the results. -/
def each (g : Search m σ) (states : List σ) : m (List σ) := do
  let results ← states.mapM g
  return results.flatten

/-- The results of the first search, then those of the second. -/
def disj (g h : Search m σ) : Search m σ := fun s => do
  let left ← g s
  let right ← h s
  return left ++ right

/-- The results of the second search from each result of the first. -/
def conj (g h : Search m σ) : Search m σ := fun s => do
  let states ← g s
  each h states

/-- The results of all the given searches, in order. -/
def disjAll (gs : List (Search m σ)) : Search m σ := fun s => do
  let results ← gs.mapM fun g => g s
  return results.flatten

/-- Sends all states through one search after the other, and stops when no state is left. -/
def levels : List (Search m σ) → List σ → m (List σ)
  | [], states => pure states
  | g :: gs, states => do
    let next ← each g states
    if next.isEmpty then pure [] else levels gs next

/-- The states that pass all the given searches. -/
def conjAll (gs : List (Search m σ)) : Search m σ :=
  fun s => levels gs [s]

end Search

end RelLogic
