import RelLogic.Proofs.Extension
import RelLogic.Proofs.MostGeneral

/-!
# What the unifier binds

Extending a substitution checks nothing, but the unifier binds only a variable at which a walk has just ended, and
only to a term at which another walk has ended (`Subst.CanBind`).  A property of substitutions that such a binding
keeps is kept by a whole run (`Solves.keeps`).  One such property is that no variables are bound in a ring
(`Subst.RingFree.extend`).
-/

namespace RelLogic

namespace Subst

/-- The variable has no binding, and the term is no variable or another variable without a binding. -/
structure CanBind (s : Subst) (x : Var) (t : Term) : Prop where
  unbound : s.get? x = none
  other : t ≠ .var x
  walked : ∀ y, t = .var y → s.get? y = none

variable {s : Subst} {x : Var} {t : Term}

/-- No ring of variables comes from a binding that the unifier makes. -/
theorem RingFree.extend (hs : s.RingFree) (h : s.CanBind x t) : (s.extend x t).RingFree := by
  refine hs.extend_of_walk? h.unbound ?_
  rw [Ends.walk? h.walked]
  exact fun e => h.other (Option.some.inj e)

end Subst

/-! ### Runs -/

theorem canBind_of_bind {s : Subst} {e : Equation} {u v t : Term} {x : Var} (hu : s.walk? e.lhs = some u)
    (hv : s.walk? e.rhs = some v) (hm : Move.of u v = .bind x t) : s.CanBind x t :=
  ⟨get?_of_bind hu hv hm, (Move.of_eq_bind hm).1, free_of_bind hu hv hm⟩

/-- What every binding of the unifier keeps, a whole run keeps. -/
theorem Solves.keeps {P : Subst → Prop} (hP : ∀ {s x t}, s.CanBind x t → P s → P (s.extend x t)) {s s' : Subst}
    {pending : List Equation} {o : Outcome} (h : Solves s pending o) (hs : P s) (hs' : o.store? = some s') :
    P s' := by
  induction h with
  | done s =>
    obtain rfl : s = s' := by simpa using hs'
    exact hs
  | agree _ _ _ _ ih => exact ih hs hs'
  | bind hu hv hm _ ih => exact ih (hP (canBind_of_bind hu hv hm) hs) hs'
  | split _ _ _ _ ih => exact ih hs hs'
  | clash => simp at hs'

end RelLogic
