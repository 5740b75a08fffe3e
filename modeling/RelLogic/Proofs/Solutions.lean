import Mathlib.Data.Set.Basic
import RelLogic.Proofs.Meaning
import RelLogic.Proofs.Resolution
import RelLogic.Proofs.Solvability

/-!
# Solution sets

A substitution and a list of equations have the valuations by finite trees as solutions that agree with all bindings
and solve all equations.  The solutions of the end of a branch are those of its beginning that solve the equations of
the branch, and an end that is not acyclic is as good as none: it has no solution, and while there is a solution, the
substitution stays acyclic (`follow?_of_mem_solutions`).  So the solution sets of the acyclic results of a search can
be told from the solution sets of the branches (`solutions_of_answers?`), which know nothing of the order in which
variables are bound.

Solutions also determine what a term resolves to, when no variable is left in it (`Subst.Resolves.eq_of_ground`).
-/

namespace RelLogic

/-- The valuations by finite trees that agree with every binding. -/
def Subst.solutions (s : Subst) : Set (Var → Tree) :=
  {ρ | Tree.model.SatisfiesAll ρ s}

/-- The valuations by finite trees that solve all the equations. -/
def solutionsOf (b : List Equation) : Set (Var → Tree) :=
  {ρ | Tree.model.EquatesAll ρ b}

@[simp] theorem Subst.mem_solutions {s : Subst} {ρ : Var → Tree} : ρ ∈ s.solutions ↔ Tree.model.SatisfiesAll ρ s :=
  Iff.rfl

@[simp] theorem mem_solutionsOf {b : List Equation} {ρ : Var → Tree} :
    ρ ∈ solutionsOf b ↔ Tree.model.EquatesAll ρ b :=
  Iff.rfl

@[simp] theorem solutionsOf_nil : solutionsOf [] = Set.univ := by
  ext ρ
  simp

@[simp] theorem solutionsOf_append (b c : List Equation) : solutionsOf (b ++ c) = solutionsOf b ∩ solutionsOf c := by
  ext ρ
  simp [Model.EquatesAll, or_imp, forall_and]

theorem solutionsOf_swap (u v : Term) : solutionsOf [⟨u, v⟩] = solutionsOf [⟨v, u⟩] := by
  ext ρ
  simp [Model.Equates, eq_comm]

theorem Subst.Acyclic.nonempty_solutions {s : Subst} (hs : s.Acyclic) : s.solutions.Nonempty := by
  obtain ⟨ρ, hρ, -⟩ := hs.exists_solution Tree.model.toModel fun _ => .nil
  exact ⟨ρ, hρ⟩

/-! ### Ends of branches -/

variable {fuel : Nat} {s : Subst}

/-- A branch that has a solution has an end, and the substitution there is acyclic. -/
theorem follow?_of_mem_solutions {b : List Equation} {last? : Option Subst} (hs : s.Acyclic)
    (h : follow? fuel b s = some last?) {ρ : Var → Tree} (hρ : ρ ∈ s.solutions) (hb : ρ ∈ solutionsOf b) :
    ∃ r, last? = some r ∧ r.Acyclic := by
  induction b generalizing s with
  | nil => exact ⟨s, (Option.some.inj h).symm, hs⟩
  | cons e b ih =>
    obtain ⟨he, hb⟩ := Model.equatesAll_cons.1 hb
    have hsolvable : Tree.model.EquatesAll ρ [e] := by simpa using he
    obtain ⟨events, s₁, hrun, hs₁⟩ := exists_solves hs (Model.SatisfiesAll.satisfies hρ) hsolvable
    -- runs are unique, so the run that a solution promises is the one that was made
    rw [follow?] at h
    split at h
    · rename_i events' s₂ hstep
      obtain ⟨-, rfl⟩ : events = events' ∧ s₁ = s₂ := by
        simpa using hrun.unique (solves_of_solve? hstep)
      have hρ₁ : ρ ∈ s₁.solutions := by
        have hreading := hrun.reading_iff Tree.model (Model.reading_satisfiesAll (ρ := ρ) _)
        simpa using hreading.2 ⟨hρ, hsolvable⟩
      exact ih hs₁ h hρ₁ hb
    · rename_i events' hstep
      simpa using hrun.unique (solves_of_solve? hstep)
    · contradiction

theorem solutions_of_follow? {b : List Equation} {r : Subst} (h : follow? fuel b s = some (some r)) :
    r.solutions = s.solutions ∩ solutionsOf b := by
  ext ρ
  have hreading := follow?_reading_iff (Model.reading_satisfiesAll (ρ := ρ) Tree.model.toModel) h
  simpa using hreading

section

open Classical

private theorem solutions_of_last? (hs : s.Acyclic) {b : List Equation} {last? : Option Subst}
    (h : follow? fuel b s = some last?) :
    (last?.toList.filter (·.Acyclic)).map Subst.solutions = [s.solutions ∩ solutionsOf b].filter (·.Nonempty) := by
  by_cases hne : (s.solutions ∩ solutionsOf b).Nonempty
  · obtain ⟨r, rfl, hr⟩ : ∃ r, last? = some r ∧ r.Acyclic := by
      obtain ⟨ρ, hρ, hb⟩ := hne
      exact follow?_of_mem_solutions hs h hρ hb
    simp [hr, hne, solutions_of_follow? h]
  · have hcyclic : ∀ r, last? = some r → ¬r.Acyclic := by
      rintro r rfl hr
      exact hne (solutions_of_follow? h ▸ hr.nonempty_solutions)
    cases last? with
    | none => simp [hne]
    | some r => simp [hne, hcyclic r rfl]

/-- The solution sets of the acyclic substitutions at the ends of branches are those of the branches that are not
empty, in the same order. -/
theorem solutions_of_answers? (hs : s.Acyclic) {bs : List (List Equation)} {results : List Subst}
    (h : answers? fuel bs s = some results) :
    (results.filter (·.Acyclic)).map Subst.solutions =
      (bs.map fun b => s.solutions ∩ solutionsOf b).filter (·.Nonempty) := by
  induction bs generalizing results with
  | nil =>
    obtain rfl := Option.some.inj h
    rfl
  | cons b bs ih =>
    simp only [answers?, bind, Option.bind_eq_some_iff, pure, Option.some.injEq] at h
    obtain ⟨last?, hb, others, hothers, rfl⟩ := h
    rw [List.filter_append, List.map_append, solutions_of_last? hs hb, ih hothers, ← List.filter_append]
    rfl

end

/-! ### Terms without variables -/

universe u

variable {D : Type u}

theorem FreeModel.bare_eq_of_eval_eq (M : FreeModel D) {ρ : Var → D} {t u : Term} (ht : t.vars = [])
    (hu : u.vars = []) (h : M.eval ρ t = M.eval ρ u) : t.bare = u.bare := by
  induction t generalizing u with
  | nil =>
    cases u with
    | nil => rfl
    | atom j b => exact (M.nil_ne_atom _ h).elim
    | var x => contradiction
    | pair j a d => exact (M.nil_ne_cons _ _ h).elim
  | atom i a =>
    cases u with
    | nil => exact (M.nil_ne_atom _ h.symm).elim
    | atom j b => rw [Term.bare, Term.bare, M.atom_inj h]
    | var x => contradiction
    | pair j b d => exact (M.atom_ne_cons _ _ _ h).elim
  | var x => contradiction
  | pair i a d iha ihd =>
    cases u with
    | nil => exact (M.nil_ne_cons _ _ h.symm).elim
    | atom j b => exact (M.atom_ne_cons _ _ _ h.symm).elim
    | var x => contradiction
    | pair j a' d' =>
      obtain ⟨hcar, hcdr⟩ := M.cons_inj h
      obtain ⟨ha, hd⟩ := List.append_eq_nil_iff.1 ht
      obtain ⟨ha', hd'⟩ := List.append_eq_nil_iff.1 hu
      rw [Term.bare, Term.bare, iha ha ha' hcar, ihd hd hd' hcdr]

private def tall : Nat → Tree
  | 0 => .nil
  | n + 1 => .cons (tall n) .nil

private theorem lt_size_tall (n : Nat) : n < (tall n).size := by
  induction n with
  | zero => exact Nat.zero_lt_one
  | succ n ih =>
    show n + 1 < (tall n).size + 1 + 1
    omega

namespace Subst

/-- What a term resolves to is determined by the solutions if no variable is left: any substitution that has no other
solutions gives the same. -/
theorem Resolves.eq_of_ground {s₁ s₂ : Subst} (hs : s₂.Acyclic) (hsub : s₂.solutions ⊆ s₁.solutions)
    {t r₁ r₂ : Term} (h₁ : s₁.Resolves t r₁) (hr₁ : r₁.vars = []) (h₂ : s₂.Resolves t r₂) : r₁.bare = r₂.bare := by
  have hvalue : ∀ ρ ∈ s₂.solutions, Tree.model.eval ρ r₁ = Tree.model.eval ρ r₂ := by
    intro ρ hρ
    rw [h₁.eval_eq (hsub hρ).satisfies, h₂.eval_eq hρ.satisfies]
  -- a variable that was left could have a value too large for that of the term
  have hr₂ : r₂.vars = [] := by
    rw [List.eq_nil_iff_forall_not_mem]
    intro y hy
    let bound := (Tree.model.eval (fun _ => .nil) r₁).size
    obtain ⟨ρ, hρ, hα⟩ := hs.exists_solution Tree.model.toModel fun _ => tall bound
    have hconst : Tree.model.eval ρ r₁ = Tree.model.eval (fun _ => .nil) r₁ := Model.eval_congr (by simp [hr₁])
    have hle := size_le_of_mem_vars (ρ := ρ) hy
    rw [← hvalue ρ hρ, hconst, hα y (h₂.unbound hy)] at hle
    exact absurd (lt_size_tall bound) (Nat.not_lt.2 hle)
  obtain ⟨ρ, hρ⟩ := hs.nonempty_solutions
  exact Tree.model.bare_eq_of_eval_eq hr₁ hr₂ (hvalue ρ hρ)

/-- If an acyclic substitution has no solutions but those of another, it resolves to the same tree each term of which
the other leaves no variable. -/
theorem resolve?_of_ground {s₁ s₂ : Subst} (hs : s₂.Acyclic) (hsub : s₂.solutions ⊆ s₁.solutions) {t r₁ : Term}
    {σ σ' : Supply} (h : s₁.resolve? t σ = some (r₁, σ')) (hr₁ : r₁.vars = []) (τ : Supply) :
    ∃ r₂ τ', s₂.resolve? t τ = some (r₂, τ') ∧ r₂.same r₁ = true := by
  obtain ⟨r₂, τ', h₂⟩ := exists_resolve? hs t τ
  have hbare := (resolves_of_resolve? h).eq_of_ground hs hsub (by rw [Term.vars_bare, hr₁]) (resolves_of_resolve? h₂)
  refine ⟨r₂, τ', h₂, Term.same_iff.2 ?_⟩
  simpa using hbare.symm

end Subst

end RelLogic
