import RelLogic.Term.Basic

/-!
# Sameness of structure

Two terms are the same when they are the same tree: serial numbers do not count. The comparison keeps a list
of the pairs of terms that are still to be compared, so that its depth does not grow with the terms, and
drops a pair of which both sides are one object. `Term.same_iff` says that dropping such pairs, and the
order in which the others are taken, never changes the answer: it is equality of the trees without their
serial numbers.
-/

namespace RelLogic

namespace Term

/-- The tree of a term: the term with every serial number set to zero. -/
def bare : Term → Term
  | .nil => .nil
  | .atom _ a => .atom 0 a
  | .var x => .var x
  | .pair _ a d => .pair 0 a.bare d.bare

/-- Whether the two sides of every given pair are the same tree. -/
def allSame : List (Term × Term) → Bool
  | [] => true
  | (s, t) :: rest =>
    if s = t then allSame rest
    else
      match s, t with
      | .atom _ a, .atom _ b => if a = b then allSame rest else false
      | .pair _ a d, .pair _ b e => allSame ((a, b) :: (d, e) :: rest)
      | _, _ => false
termination_by pending => pending.foldr (fun p n => p.1.nodes + n) 0
decreasing_by
  all_goals simp [nodes, nodes_pos]
  omega

/-- Whether two terms are the same tree. -/
def same (s t : Term) : Bool :=
  allSame [(s, t)]

private theorem allSame_iff (pending : List (Term × Term)) :
    allSame pending = true ↔ ∀ p ∈ pending, p.1.bare = p.2.bare := by
  fun_induction allSame pending with
  | case1 => simp
  | case2 t rest ih => simp [ih]
  | case3 rest i a j _ ih => simp [ih, bare]
  | case4 rest i a j b hne hab => simp_all [bare]
  | case5 rest i a d j b e hne ih => simp [ih, bare, and_assoc]
  | case6 s t rest hst hatom hpair =>
    cases s <;> cases t
    case atom.atom => exact (hatom _ _ _ _ rfl rfl).elim
    case pair.pair => exact (hpair _ _ _ _ _ _ rfl rfl).elim
    all_goals simp_all [bare]

/-- Sameness is equality of the trees without their serial numbers. -/
theorem same_iff {s t : Term} : s.same t = true ↔ s.bare = t.bare := by
  simp [same, allSame_iff]

theorem same_pair {i j : Nat} {a b d e : Term} :
    (pair i a d).same (pair j b e) = true ↔ a.same b = true ∧ d.same e = true := by
  simp [same_iff, bare]

end Term

end RelLogic
