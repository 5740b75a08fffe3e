import RelLogic.Proofs.Acyclic
import RelLogic.Proofs.MostGeneral
import RelLogic.Proofs.Resolution

/-!
# Unification decides solvability over finite trees

A finite solution bounds the run of the unifier: the values of the pending left sides are finite trees, and every
move makes them fewer or smaller, since a pair is replaced by its two parts.  A finite solution also keeps the
substitution acyclic, without any check: what a variable refers to inside a pair is smaller than the value of the
variable.  So a run on a solvable problem ends, cannot fail, and ends with an acyclic substitution
(`exists_solves`).  Conversely an acyclic substitution has a finite solution, and one of the substitution at the end of
a run solves the problem at its beginning (`exists_finiteSolution`).
-/

namespace RelLogic

open Relation (TransGen ReflTransGen)

/-! ### Sizes of values -/

/-- The number of nodes of a tree. -/
def Tree.size : Tree → Nat
  | .nil => 1
  | .atom _ => 1
  | .cons a d => a.size + d.size + 1

theorem Tree.size_pos (t : Tree) : 0 < t.size := by
  cases t <;> simp [Tree.size]

variable {ρ : Var → Tree}

theorem size_le_of_mem_vars {t : Term} {y : Var} (hy : y ∈ t.vars) :
    (ρ y).size ≤ (Tree.model.eval ρ t).size := by
  induction t with
  | nil => simp [Term.vars] at hy
  | atom i a => simp [Term.vars] at hy
  | var x =>
    obtain rfl : y = x := by simpa [Term.vars] using hy
    exact Nat.le_refl _
  | pair i a d iha ihd =>
    show _ ≤ (Tree.model.eval ρ a).size + (Tree.model.eval ρ d).size + 1
    rcases List.mem_append.1 hy with h | h
    · have := iha h
      omega
    · have := ihd h
      omega

/-- A variable inside a pair has a smaller value than the pair. -/
theorem size_lt_of_mem_vars_pair {i : Nat} {a d : Term} {y : Var} (hy : y ∈ (Term.pair i a d).vars) :
    (ρ y).size < (Tree.model.eval ρ (.pair i a d)).size := by
  show _ < (Tree.model.eval ρ a).size + (Tree.model.eval ρ d).size + 1
  rcases List.mem_append.1 hy with h | h
  · have := size_le_of_mem_vars (ρ := ρ) h
    omega
  · have := size_le_of_mem_vars (ρ := ρ) h
    omega

theorem size_le_of_refers {s : Subst} (hs : Tree.model.Satisfies ρ s) {x y : Var}
    (h : ReflTransGen s.Refers x y) : (ρ y).size ≤ (ρ x).size := by
  induction h with
  | refl => exact Nat.le_refl _
  | tail _ hbc ih =>
    obtain ⟨t, ht, hc⟩ := hbc
    have := size_le_of_mem_vars (ρ := ρ) hc
    rw [← hs _ _ ht] at this
    omega

/-! ### Acyclicity -/

/-- A new binding that has a finite solution makes no loop: if the term is a variable without a binding, the chain
ends there, and if it is a pair, the values on the chain become smaller and never larger. -/
theorem noLoop_of_satisfies {s : Subst} {x : Var} {t : Term} (htx : t ≠ .var x)
    (hwalked : ∀ y, t = .var y → s.get? y = none) (hs : Tree.model.Satisfies ρ (s.extend x t)) :
    ¬TransGen (s.extend x t).Refers x x := by
  intro h
  have hxt : (s.extend x t).get? x = some t := by simp [Subst.get?_extend]
  obtain ⟨y, ⟨u, hu, hy⟩, hyx⟩ := TransGen.head'_iff.1 h
  obtain rfl : t = u := Option.some.inj (hxt.symm.trans hu)
  cases t with
  | nil => simp [Term.vars] at hy
  | atom i a => simp [Term.vars] at hy
  | var z =>
    obtain rfl : y = z := by simpa [Term.vars] using hy
    -- `y` is another variable than `x` and has no binding, so nothing leads back from it
    have hne : y ≠ x := fun e => htx (by rw [e])
    rcases ReflTransGen.cases_head hyx with e | ⟨w, ⟨u, hu, -⟩, -⟩
    · exact hne e
    · rw [Subst.get?_extend, if_neg hne, hwalked y rfl] at hu
      contradiction
  | pair i a d =>
    -- on the way from the pair back to `x` the values become smaller, but `x` has the value of the pair
    have hlt := size_lt_of_mem_vars_pair (ρ := ρ) hy
    have hle := size_le_of_refers hs hyx
    rw [← hs x _ hxt] at hlt
    omega

/-! ### Runs on solvable problems -/

/-- The size of the values of all left sides. -/
def weight (ρ : Var → Tree) : List Equation → Nat
  | [] => 0
  | e :: es => (Tree.model.eval ρ e.lhs).size + weight ρ es

theorem weight_lt_cons (e : Equation) (es : List Equation) : weight ρ es < weight ρ (e :: es) := by
  have := (Tree.model.eval ρ e.lhs).size_pos
  show weight ρ es < (Tree.model.eval ρ e.lhs).size + weight ρ es
  omega

theorem weight_split {s : Subst} (hs : Tree.model.Satisfies ρ s) {e cars cdrs : Equation} {u v : Term}
    (hu : s.walk? e.lhs = some u) (hm : Move.of u v = .split cars cdrs) (es : List Equation) :
    weight ρ (cars :: cdrs :: es) < weight ρ (e :: es) := by
  obtain ⟨i, j, rfl, rfl⟩ := Move.of_eq_split hm
  have he : (Tree.model.eval ρ e.lhs).size = (Tree.model.eval ρ cars.lhs).size + (Tree.model.eval ρ cdrs.lhs).size + 1 := by
    rw [← Model.eval_walk? hs hu]
    rfl
  simp only [weight, he]
  omega

/-- If an acyclic substitution and pending equations have a common finite solution, the run ends with an acyclic
substitution. -/
theorem exists_solves {s : Subst} {pending : List Equation} (hs : s.Acyclic)
    (hρ : Tree.model.Satisfies ρ s) (hpending : Tree.model.EquatesAll ρ pending) :
    ∃ events s', Solves s pending ⟨events, some s'⟩ ∧ s'.Acyclic := by
  -- the number of moves is not known yet, so the induction is on what the solution makes of the left sides
  induction hn : weight ρ pending using Nat.strongRecOn generalizing s pending with
  | ind n ih =>
    subst hn
    cases pending with
    | nil => exact ⟨[], s, .done s, hs⟩
    | cons e rest =>
      obtain ⟨he, hrest⟩ := Model.equatesAll_cons.1 hpending
      obtain ⟨u, hu⟩ := Subst.exists_walk? hs.ringFree e.lhs
      obtain ⟨v, hv⟩ := Subst.exists_walk? hs.ringFree e.rhs
      rw [Model.equates_iff_walked hρ hu hv] at he
      cases hm : Move.of u v with
      | agree =>
        obtain ⟨events, s', hrun, hs'⟩ := ih _ (weight_lt_cons e rest) hs hρ hrest rfl
        exact ⟨events, s', .agree hu hv hm hrun, hs'⟩
      | bind x t =>
        have hx := get?_of_bind hu hv hm
        have hρ' : Tree.model.Satisfies ρ (s.extend x t) :=
          (Model.satisfies_extend hx t).2 ⟨hρ, (Model.eval_eq_iff_of_bind hm).1 he⟩
        have hs' := hs.extend hx (noLoop_of_satisfies (Move.of_eq_bind hm).1 (free_of_bind hu hv hm) hρ')
        obtain ⟨events, s', hrun, hs'⟩ := ih _ (weight_lt_cons e rest) hs' hρ' hrest rfl
        exact ⟨_, s', .bind hu hv hm hrun, hs'⟩
      | split cars cdrs =>
        obtain ⟨hcars, hcdrs⟩ := (Model.eval_eq_iff_of_split hm).1 he
        have hpending' : Tree.model.EquatesAll ρ (cars :: cdrs :: rest) := by
          simp only [Model.equatesAll_cons]
          exact ⟨hcars, hcdrs, hrest⟩
        obtain ⟨events, s', hrun, hs'⟩ := ih _ (weight_split hρ hu hm rest) hs hρ hpending' rfl
        exact ⟨events, s', .split hu hv hm hrun, hs'⟩
      | clash => exact (Tree.model.eval_ne_of_clash hm he).elim

/-- A valuation by finite trees that agrees with every binding and gives both terms one value. -/
structure FiniteSolution (ρ : Var → Tree) (s : Subst) (u v : Term) : Prop where
  bindings : Tree.model.SatisfiesAll ρ s
  equal : Tree.model.eval ρ u = Tree.model.eval ρ v

/-- If a run ends with an acyclic substitution, there was a finite solution at its beginning. -/
theorem exists_finiteSolution {s s' : Subst} {u v : Term} {o : Outcome} (h : Solves s [⟨u, v⟩] o)
    (hs' : o.store? = some s') (hacyclic : s'.Acyclic) : ∃ ρ, FiniteSolution ρ s u v := by
  obtain ⟨ρ, hρ, -⟩ := hacyclic.exists_solution Tree.model.toModel fun _ => .nil
  obtain ⟨hbindings, hequal⟩ := (h.reading_iff Tree.model (Model.reading_satisfiesAll _)).1 ⟨s', hs', hρ⟩
  exact ⟨ρ, hbindings, by simpa [Model.Equates] using hequal⟩

/-! ### Main statement -/

/-- From an acyclic substitution, unification ends with an acyclic substitution if and only if there is a finite
solution; there is none if it fails, and none if the substitution at its end is not acyclic. -/
theorem unify?_decides_solvability {s : Subst} (hs : s.Acyclic) (u v : Term) :
    ((∃ ρ, FiniteSolution ρ s u v) ↔
      ∃ fuel events s', unify? fuel u v s = some ⟨events, some s'⟩ ∧ s'.Acyclic) ∧
    (∀ fuel events, unify? fuel u v s = some ⟨events, none⟩ → ¬∃ ρ, FiniteSolution ρ s u v) ∧
    (∀ fuel events s', unify? fuel u v s = some ⟨events, some s'⟩ → ¬s'.Acyclic →
      ¬∃ ρ, FiniteSolution ρ s u v) := by
  have hrun : (∃ ρ, FiniteSolution ρ s u v) →
      ∃ events s', Solves s [⟨u, v⟩] ⟨events, some s'⟩ ∧ s'.Acyclic := by
    rintro ⟨ρ, hρ⟩
    exact exists_solves hs hρ.bindings.satisfies (by simpa [Model.Equates] using hρ.equal)
  refine ⟨⟨fun h => ?_, ?_⟩, fun fuel events hfail h => ?_, fun fuel events s' hend hcyclic h => ?_⟩
  · obtain ⟨events, s', hsolves, hs'⟩ := hrun h
    obtain ⟨fuel, hfuel⟩ := hsolves.exists_solve?
    exact ⟨fuel, events, s', hfuel, hs'⟩
  · rintro ⟨fuel, events, s', hend, hs'⟩
    exact exists_finiteSolution (solves_of_solve? hend) rfl hs'
  · obtain ⟨events', s', hsolves, -⟩ := hrun h
    simpa using hsolves.unique (solves_of_solve? hfail)
  · obtain ⟨events', s'', hsolves, hs''⟩ := hrun h
    obtain ⟨-, rfl⟩ : events' = events ∧ s'' = s' := by
      simpa using hsolves.unique (solves_of_solve? hend)
    exact hcyclic hs''

/-- With `z` bound to `(x)`, the terms `z` and `(true)` have a finite solution, so they unify. -/
theorem unify?_decides_solvability_bound :
    Subst.Acyclic ⟨[(⟨1, "z"⟩, .pair 0 (.var ⟨0, "x"⟩) .nil)], 1⟩ ∧
      ∃ fuel events s', unify? fuel (.var ⟨1, "z"⟩) (.pair 2 (.atom 1 (.bool true)) .nil)
        ⟨[(⟨1, "z"⟩, .pair 0 (.var ⟨0, "x"⟩) .nil)], 1⟩ = some ⟨events, some s'⟩ ∧ s'.Acyclic := by
  have hρ : FiniteSolution (fun x => if x = ⟨1, "z"⟩ then .cons (.atom (.bool true)) .nil else .atom (.bool true))
      ⟨[(⟨1, "z"⟩, .pair 0 (.var ⟨0, "x"⟩) .nil)], 1⟩ (.var ⟨1, "z"⟩) (.pair 2 (.atom 1 (.bool true)) .nil) := by
    constructor
    · simp [Model.SatisfiesAll, Model.eval, Tree.model]
    · rfl
  have hs : Subst.Acyclic ⟨[(⟨1, "z"⟩, .pair 0 (.var ⟨0, "x"⟩) .nil)], 1⟩ := by
    refine Subst.acyclic_empty.extend rfl (noLoop_of_satisfies ?_ ?_ hρ.bindings.satisfies)
    · simp
    · simp
  exact ⟨hs, (unify?_decides_solvability hs _ _).1.1 ⟨_, hρ⟩⟩

end RelLogic
