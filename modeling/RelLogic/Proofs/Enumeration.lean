import Mathlib.Data.List.Forall2
import Mathlib.Data.List.ReduceOption
import RelLogic.Proofs.Branches
import RelLogic.Proofs.Search

/-!
# Searching is going through the branches

A search gives what going through the branches of the goal one by one gives, when the equations of each branch are
met from left to right: the same substitutions in the same order and as often (`search_refines_answers?`).  So it
makes no difference that branches that begin alike share the work, that a conjunction of many parts is searched
level by level, and that the search stops where no state is left.
-/

namespace RelLogic

/-! ### Going through branches -/

/-- Meets the equations of a branch from left to right.  The answer is `some none` if one of them cannot be met, and
`none` if unifying does not end within the given number of moves. -/
def follow? (fuel : Nat) : List Equation → Subst → Option (Option Subst)
  | [], s => some (some s)
  | e :: es, s =>
    match unify? fuel e.lhs e.rhs s with
    | some ⟨_, some s'⟩ => follow? fuel es s'
    | some ⟨_, none⟩ => some none
    | none => none

/-- The substitutions at the ends of the branches of which all equations can be met, in the order of the
branches. -/
def answers? (fuel : Nat) : List (List Equation) → Search Option Subst
  | [], _ => some []
  | b :: bs, s => do
    let last? ← follow? fuel b s
    let others ← answers? fuel bs s
    return last?.toList ++ others

variable {fuel : Nat}

/-- After its first equation a branch goes on only if that was met. -/
theorem exists_unify?_of_follow? {e : Equation} {es : List Equation} {s : Subst} {last? : Option Subst}
    (h : follow? fuel (e :: es) s = some last?) :
    ∃ o, unify? fuel e.lhs e.rhs s = some o ∧
      (o.store? = none ∧ last? = none ∨ ∃ s', o.store? = some s' ∧ follow? fuel es s' = some last?) := by
  simp only [follow?] at h
  split at h
  · exact ⟨_, ‹_›, .inr ⟨_, rfl, h⟩⟩
  · exact ⟨_, ‹_›, .inl ⟨rfl, (Option.some.inj h).symm⟩⟩
  · contradiction

/-- The answers are the ends of the branches that have one. -/
theorem exists_follow?_of_answers? {bs : List (List Equation)} {s : Subst} {results : List Subst}
    (h : answers? fuel bs s = some results) :
    ∃ ends, List.Forall₂ (fun b last? => follow? fuel b s = some last?) bs ends ∧ results = ends.reduceOption := by
  induction bs generalizing results with
  | nil =>
    obtain rfl := Option.some.inj h
    exact ⟨[], .nil, rfl⟩
  | cons b bs ih =>
    simp only [answers?, bind, Option.bind_eq_some_iff, pure, Option.some.injEq] at h
    obtain ⟨last?, hlast, others, hothers, rfl⟩ := h
    obtain ⟨ends, hends, rfl⟩ := ih hothers
    refine ⟨last? :: ends, .cons hlast hends, ?_⟩
    cases last? with
    | none => rw [List.reduceOption_cons_of_none, Option.toList_none, List.nil_append]
    | some r => rw [List.reduceOption_cons_of_some, Option.toList_some, List.singleton_append]

/-- A branch that goes on after another begins where the other ends. -/
theorem follow?_append (b c : List Equation) (s : Subst) :
    follow? fuel (b ++ c) s = (follow? fuel b s).bind fun last? => last?.elim (some none) (follow? fuel c) := by
  induction b generalizing s with
  | nil => rfl
  | cons e b ih =>
    simp only [List.cons_append, follow?]
    split
    · exact ih _
    · rfl
    · rfl

theorem answers?_append (bs cs : List (List Equation)) (s : Subst) :
    answers? fuel (bs ++ cs) s = do
      let results ← answers? fuel bs s
      let others ← answers? fuel cs s
      return results ++ others := by
  induction bs with
  | nil => simp [answers?]
  | cons b bs ih =>
    rw [List.cons_append, answers?, answers?, ih]
    simp only [bind_assoc, pure_bind, List.append_assoc]

private theorem answers?_map_append {b : List Equation} {s : Subst} {last? : Option Subst}
    (hb : follow? fuel b s = some last?) (cs : List (List Equation)) :
    answers? fuel (cs.map fun c => b ++ c) s = last?.elim (some []) (answers? fuel cs) := by
  induction cs with
  | nil => cases last? <;> rfl
  | cons c cs ih =>
    rw [List.map_cons, answers?, ih, follow?_append, hb]
    cases last? <;> rfl

/-- Going through joined branches gives what going through the second ones gives from each end of a first one. -/
theorem answers?_joined {bs cs : List (List Equation)} {s : Subst} {states results : List Subst}
    (hbs : answers? fuel bs s = some states) (hcs : Search.each (answers? fuel cs) states = some results) :
    answers? fuel (joined bs cs) s = some results := by
  induction bs generalizing states results with
  | nil =>
    obtain rfl := Option.some.inj hbs
    simpa [joined, answers?] using hcs
  | cons b bs ih =>
    simp only [answers?, bind, Option.bind_eq_some_iff, pure, Option.some.injEq] at hbs
    obtain ⟨last?, hb, ends, hends, rfl⟩ := hbs
    simp only [Search.each_append, bind, Option.bind_eq_some_iff, pure, Option.some.injEq] at hcs
    obtain ⟨results₁, h₁, results₂, h₂, rfl⟩ := hcs
    have hfirst : answers? fuel (cs.map fun c => b ++ c) s = some results₁ := by
      rw [answers?_map_append hb]
      cases last? with
      | none => simpa using h₁
      | some s' => simpa [Search.each_singleton] using h₁
    have hjoin : joined (b :: bs) cs = (cs.map fun c => b ++ c) ++ joined bs cs := rfl
    rw [hjoin, answers?_append, hfirst, ih hends h₂]
    rfl

/-- The same, from many states. -/
theorem each_answers?_joined {bs cs : List (List Equation)} {states middle results : List Subst}
    (hbs : Search.each (answers? fuel bs) states = some middle)
    (hcs : Search.each (answers? fuel cs) middle = some results) :
    Search.each (answers? fuel (joined bs cs)) states = some results := by
  induction states generalizing middle results with
  | nil =>
    obtain rfl : [] = middle := by simpa using hbs
    simpa using hcs
  | cons s states ih =>
    simp only [Search.each_cons, bind, Option.bind_eq_some_iff, pure, Option.some.injEq] at hbs
    obtain ⟨middle₁, hm₁, middle₂, hm₂, rfl⟩ := hbs
    simp only [Search.each_append, bind, Option.bind_eq_some_iff, pure, Option.some.injEq] at hcs
    obtain ⟨results₁, h₁, results₂, h₂, rfl⟩ := hcs
    rw [Search.each_cons, answers?_joined hm₁ h₁, ih hm₂ h₂]
    rfl

private theorem each_answers?_unit (states : List Subst) :
    Search.each (answers? fuel [[]]) states = some states := by
  induction states with
  | nil => rfl
  | cons s states ih =>
    rw [Search.each_cons, ih]
    rfl

/-! ### Searching -/

/-- The search of a goal over equations. -/
abbrev Goal.solutions (fuel : Nat) (g : Goal Equation) : Search Traced Subst :=
  g.search (Equation.search fuel)

theorem Equation.search_eq_some_iff {e : Equation} {s : Subst} {past past' : List Event} {results : List Subst} :
    e.search fuel s past = some (results, past') ↔
      ∃ o, unify? fuel e.lhs e.rhs s = some o ∧ results = o.store?.toList ∧ past' = o.events.reverse ++ past := by
  unfold Equation.search
  cases unify? fuel e.lhs e.rhs s with
  | none => simp
  | some o => simp [eq_comm]

theorem Equation.search_refines (e : Equation) (s : Subst) :
    (e.search fuel s).Refines (answers? fuel e.branches s) := by
  intro past results past' h
  obtain ⟨⟨events, last?⟩, ho, rfl, -⟩ := search_eq_some_iff.1 h
  cases last? with
  | none => simp [Equation.branches, answers?, follow?, ho]
  | some s' => simp [Equation.branches, answers?, follow?, ho]

private theorem disjAll_refines {gs : List (Goal Equation)} {s : Subst}
    (hgs : ∀ g ∈ gs, (g.solutions fuel s).Refines (answers? fuel (g.branches Equation.branches) s)) :
    (Search.disjAll (Goal.searches (Equation.search fuel) gs) s : Traced (List Subst)).Refines
      (answers? fuel (Goal.branchLists Equation.branches gs).flatten s) := by
  induction gs with
  | nil =>
    rw [Goal.searches, Search.disjAll_nil]
    exact Traced.refines_pure []
  | cons g gs ih =>
    rw [Goal.searches, Search.disjAll_cons, Goal.branchLists, List.flatten_cons, answers?_append]
    refine (hgs g (List.mem_cons_self ..)).bind fun left => ?_
    refine (ih fun g hg => hgs g (List.mem_cons_of_mem _ hg)).bind fun right => ?_
    exact Traced.refines_pure (left ++ right)

private theorem levels_refines {gs : List (Goal Equation)}
    (hgs : ∀ g ∈ gs, ∀ s, (g.solutions fuel s).Refines (answers? fuel (g.branches Equation.branches) s))
    (states : List Subst) :
    (Search.levels (Goal.searches (Equation.search fuel) gs) states : Traced (List Subst)).Refines
      (Search.each (answers? fuel ((Goal.branchLists Equation.branches gs).foldr joined [[]])) states) := by
  -- for any list of states, since the goals after the first begin with all its results at once
  induction gs generalizing states with
  | nil =>
    rw [Goal.searches, Search.levels_nil, Goal.branchLists, List.foldr_nil, each_answers?_unit]
    exact Traced.refines_pure states
  | cons g gs ih =>
    rw [Goal.searches, Search.levels_cons, Goal.branchLists, List.foldr_cons]
    have hfirst := Traced.refines_each (hgs g (List.mem_cons_self ..)) states
    have hlater := ih fun g hg => hgs g (List.mem_cons_of_mem _ hg)
    refine (hfirst.bind hlater).mono fun results h => ?_
    obtain ⟨middle, hmiddle, hresults⟩ := Option.bind_eq_some_iff.1 h
    exact each_answers?_joined hmiddle hresults

/-- What a search gives, going through the branches gives too. -/
theorem search_refines_answers? (g : Goal Equation) (s : Subst) :
    (g.solutions fuel s).Refines (answers? fuel (g.branches Equation.branches) s) := by
  induction g using Goal.ind generalizing s with
  | prim e => exact e.search_refines s
  | succeed => exact Traced.refines_pure [s]
  | fail => exact Traced.refines_pure []
  | disj g h ihg ihh =>
    rw [Goal.branches, answers?_append]
    exact (ihg s).bind fun left => (ihh s).bind fun right => Traced.refines_pure (left ++ right)
  | conj g h ihg ihh =>
    refine ((ihg s).bind (Traced.refines_each ihh)).mono fun results h => ?_
    obtain ⟨states, hstates, hresults⟩ := Option.bind_eq_some_iff.1 h
    exact answers?_joined hstates hresults
  | disjAll gs ih => exact disjAll_refines fun g hg => ih g hg s
  | conjAll gs ih =>
    have h := levels_refines ih [s]
    rwa [Search.each_singleton] at h

/-! ### Main statement -/

/-- The result of a search is the list of the substitutions at the ends of the branches of the goal expression, in
the order of the branches and one for each branch of which all equations can be met. -/
theorem search_eq_answers? {g : Goal Clause} {g' : Goal Equation} (hg : g.expand Clause.goal = .ok g')
    {s : Subst} {past past' : List Event} {results : List Subst}
    (h : g'.solutions fuel s past = some (results, past')) :
    answers? fuel (g.branches Clause.branches) s = some results := by
  rw [← Goal.branches_expand (fun _ _ => branches_of_clause) g g' hg]
  exact search_refines_answers? g' s past results past' h

/-- The sample goal finds its second item twice. -/
theorem search_eq_answers?_sample :
    ∃ g', Goal.sample.expand Clause.goal = .ok g' ∧
      ∃ past', g'.solutions 1 .empty [] = some ([⟨[(⟨0, "x"⟩, .atom 0 (.bool true))], 1⟩,
          ⟨[(⟨0, "x"⟩, .atom 1 (.bool false))], 1⟩, ⟨[(⟨0, "x"⟩, .atom 1 (.bool false))], 1⟩], past') ∧
        answers? 1 (Goal.sample.branches Clause.branches) .empty =
          some [⟨[(⟨0, "x"⟩, .atom 0 (.bool true))], 1⟩, ⟨[(⟨0, "x"⟩, .atom 1 (.bool false))], 1⟩,
            ⟨[(⟨0, "x"⟩, .atom 1 (.bool false))], 1⟩] :=
  ⟨_, rfl, _, rfl, search_eq_answers? rfl (rfl : Goal.solutions 1 _ .empty [] = _)⟩

end RelLogic
