import RelLogic.Proofs.Model
import RelLogic.Proofs.Solver

/-!
# Unification is sound and most general

A move replaces the first pending equation by a condition that means the same in every free model: nothing, a
binding, two equations, or falsehood.  So the substitution at the end of a run, together with no equations, means
what the substitution at its beginning means together with all of them (`Solves.reading_iff`).  This holds for the
two ways to read a substitution in which a variable is bound more than once: its latest binding counts, or each
of them (`Model.Reading`).
-/

namespace RelLogic

universe u

variable {D : Type u} {ρ : Var → D}

/-! ### Moves -/

namespace Model

variable {M : Model D}

theorem equates_iff_walked {s : Subst} (hs : M.Satisfies ρ s) {e : Equation} {u v : Term}
    (hu : s.walk? e.lhs = some u) (hv : s.walk? e.rhs = some v) :
    M.Equates ρ e ↔ M.eval ρ u = M.eval ρ v := by
  rw [eval_walk? hs hu, eval_walk? hs hv, Equates]

theorem eval_eq_of_agree {u v : Term} (h : Move.of u v = .agree) : M.eval ρ u = M.eval ρ v := by
  obtain rfl | ⟨i, j, a, rfl, rfl⟩ := Move.of_eq_agree h
  · rfl
  · simp only [eval]

theorem eval_eq_iff_of_bind {u v t : Term} {x : Var} (h : Move.of u v = .bind x t) :
    M.eval ρ u = M.eval ρ v ↔ ρ x = M.eval ρ t := by
  obtain ⟨-, ⟨rfl, rfl⟩ | ⟨-, rfl, rfl⟩⟩ := Move.of_eq_bind h
  · rw [eval]
  · rw [eval, eq_comm]

theorem eval_eq_iff_of_split {u v : Term} {cars cdrs : Equation} (h : Move.of u v = .split cars cdrs) :
    M.eval ρ u = M.eval ρ v ↔ M.Equates ρ cars ∧ M.Equates ρ cdrs := by
  obtain ⟨i, j, rfl, rfl⟩ := Move.of_eq_split h
  simp only [eval, Equates]
  constructor
  · exact M.cons_inj
  · rintro ⟨ha, hd⟩
    rw [ha, hd]

end Model

/-- Terms that clash have different values in a free model. -/
theorem FreeModel.eval_ne_of_clash (M : FreeModel D) {u v : Term} (h : Move.of u v = .clash) :
    M.eval ρ u ≠ M.eval ρ v := by
  obtain ⟨hu, hv, hnil, hpair, hatom⟩ := Move.of_eq_clash h
  intro he
  -- terms of two shapes differ at the root, and of the equal shapes only atoms are left by the clash
  cases u <;> cases v
  case atom.atom => exact hatom _ _ _ _ rfl rfl (M.atom_inj he)
  case nil.atom => exact M.nil_ne_atom _ he
  case atom.nil => exact M.nil_ne_atom _ he.symm
  case nil.pair => exact M.nil_ne_cons _ _ he
  case pair.nil => exact M.nil_ne_cons _ _ he.symm
  case atom.pair => exact M.atom_ne_cons _ _ _ he
  case pair.atom => exact M.atom_ne_cons _ _ _ he.symm
  all_goals simp_all [Term.isVar, Term.asVar?, Term.isNil, Term.isPair, Term.asPair?]

/-- A variable is bound only if it has no binding yet. -/
theorem get?_of_bind {s : Subst} {e : Equation} {u v t : Term} {x : Var} (hu : s.walk? e.lhs = some u)
    (hv : s.walk? e.rhs = some v) (hm : Move.of u v = .bind x t) : s.get? x = none := by
  obtain ⟨-, ⟨rfl, -⟩ | ⟨-, rfl, -⟩⟩ := Move.of_eq_bind hm
  · exact Subst.get?_of_walk? hu
  · exact Subst.get?_of_walk? hv

/-- A variable to which another is bound has no binding yet. -/
theorem free_of_bind {s : Subst} {e : Equation} {u v t : Term} {x : Var} (hu : s.walk? e.lhs = some u)
    (hv : s.walk? e.rhs = some v) (hm : Move.of u v = .bind x t) : ∀ y, t = .var y → s.get? y = none := by
  rintro y rfl
  obtain ⟨-, ⟨-, rfl⟩ | ⟨-, -, rfl⟩⟩ := Move.of_eq_bind hm
  · exact Subst.get?_of_walk? hv
  · exact Subst.get?_of_walk? hu

/-! ### Runs -/

/-- A way to read a substitution as a condition on a valuation: it asks for the latest binding of each variable at
least, and the first binding of a variable adds the equality of the variable and its term. -/
structure Model.Reading (M : Model D) (ρ : Var → D) (P : Subst → Prop) : Prop where
  satisfies : ∀ {s}, P s → M.Satisfies ρ s
  extend : ∀ {s x}, s.get? x = none → ∀ t, (P (s.extend x t) ↔ P s ∧ ρ x = M.eval ρ t)

theorem Model.reading_satisfies (M : Model D) : M.Reading ρ (M.Satisfies ρ) :=
  ⟨id, fun hx t => satisfies_extend hx t⟩

theorem Model.reading_satisfiesAll (M : Model D) : M.Reading ρ (M.SatisfiesAll ρ) :=
  ⟨SatisfiesAll.satisfies, fun _ _ => satisfiesAll_extend⟩

/-- A run ends with a substitution that the valuation fits if and only if the valuation fits the substitution at
its beginning and solves all the equations. -/
theorem Solves.reading_iff (M : FreeModel D) {P : Subst → Prop} (hP : M.Reading ρ P) {s : Subst}
    {pending : List Equation} {o : Outcome} (h : Solves s pending o) :
    (∃ s', o.store? = some s' ∧ P s') ↔ P s ∧ M.EquatesAll ρ pending := by
  induction h with
  | done s => simp
  | agree hu hv hm _ ih =>
    rw [ih, Model.equatesAll_cons]
    refine and_congr_right fun hs => (and_iff_right ?_).symm
    exact (Model.equates_iff_walked (hP.satisfies hs) hu hv).2 (Model.eval_eq_of_agree hm)
  | bind hu hv hm _ ih =>
    -- the walk ended at the variable, so the new binding hides no other
    refine ih.trans ?_
    rw [hP.extend (get?_of_bind hu hv hm), and_assoc, Model.equatesAll_cons]
    refine and_congr_right fun hs => and_congr_left' ?_
    rw [Model.equates_iff_walked (hP.satisfies hs) hu hv, Model.eval_eq_iff_of_bind hm]
  | split hu hv hm _ ih =>
    rw [ih, Model.equatesAll_cons, Model.equatesAll_cons, Model.equatesAll_cons, ← and_assoc (a := M.Equates ρ _)]
    refine and_congr_right fun hs => and_congr_left' ?_
    rw [Model.equates_iff_walked (hP.satisfies hs) hu hv, Model.eval_eq_iff_of_split hm]
  | clash hu hv hm =>
    rw [Model.equatesAll_cons]
    -- no substitution at the end, and no valuation at the beginning
    constructor
    · rintro ⟨s', hs', -⟩
      contradiction
    · rintro ⟨hs, he, -⟩
      exact (M.eval_ne_of_clash hm ((Model.equates_iff_walked (hP.satisfies hs) hu hv).1 he)).elim

/-! ### Main statement -/

/-- Unification adds to a substitution exactly the equality of the two terms: the valuations that satisfy the
result are those that satisfy the given substitution and give both terms one value, whatever the terms share and
whether or not bindings are cyclic. -/
theorem unify?_mostGeneral {fuel : Nat} {u v : Term} {s s' : Subst} {events : List Event}
    (h : unify? fuel u v s = some ⟨events, some s'⟩) (M : FreeModel D) (ρ : Var → D) :
    M.Satisfies ρ s' ↔ M.Satisfies ρ s ∧ M.eval ρ u = M.eval ρ v := by
  have hrun := (solves_of_solve? h).reading_iff M (P := M.Satisfies ρ) M.reading_satisfies
  simpa [Model.Equates] using hrun

/-- The pairs `(x . y)` and `(y . true)`: the car binds `x` to `y`, and the cdr then binds `y`. -/
theorem unify?_mostGeneral_pairs :
    unify? 3 (.pair 1 (.var ⟨0, "x"⟩) (.var ⟨1, "y"⟩)) (.pair 2 (.var ⟨1, "y"⟩) (.atom 0 (.bool true))) .empty =
        some ⟨[.extended ⟨0, "x"⟩ (.var ⟨1, "y"⟩), .extended ⟨1, "y"⟩ (.atom 0 (.bool true))],
          some ⟨[(⟨1, "y"⟩, .atom 0 (.bool true)), (⟨0, "x"⟩, .var ⟨1, "y"⟩)], 2⟩⟩ ∧
      (Tree.model.Satisfies (fun _ => .atom (.bool true))
          ⟨[(⟨1, "y"⟩, .atom 0 (.bool true)), (⟨0, "x"⟩, .var ⟨1, "y"⟩)], 2⟩ ↔
        Tree.model.Satisfies (fun _ => .atom (.bool true)) .empty ∧
          Tree.model.eval (fun _ => .atom (.bool true)) (.pair 1 (.var ⟨0, "x"⟩) (.var ⟨1, "y"⟩)) =
            Tree.model.eval (fun _ => .atom (.bool true)) (.pair 2 (.var ⟨1, "y"⟩) (.atom 0 (.bool true)))) := by
  exact (fun h => ⟨h, unify?_mostGeneral h Tree.model _⟩ : _ → _ ∧ _) rfl

end RelLogic
