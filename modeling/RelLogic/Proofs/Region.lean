import Mathlib.Data.Set.Defs
import RelLogic.Proofs.Acyclic
import RelLogic.Proofs.Solver

/-!
# Regions

A set of variables is closed under a substitution if the bindings of its members lead to no other variables.  A run
of the unifier on terms over a closed set stays over it (`Subst.Closed.walk?`, `Equation.Over.bind`,
`Equation.Over.split`).  So it makes no difference to the run how other variables are bound, nor where in the
substitution the bindings stand that it meets: under any substitution that agrees on the closed set, it makes the same
bindings in the same order and causes the same events (`Solves.exists_of_agreeOn`).
-/

namespace RelLogic

variable {R : Set Var}

/-! ### Terms over a set of variables -/

/-- All variables of the term are in the set. -/
def Term.Over (R : Set Var) (t : Term) : Prop :=
  ∀ x ∈ t.vars, x ∈ R

namespace Term

@[simp] theorem over_var {x : Var} : (var x).Over R ↔ x ∈ R := by
  simp [Over, vars]

@[simp] theorem over_pair {i : Nat} {a d : Term} : (pair i a d).Over R ↔ a.Over R ∧ d.Over R := by
  simp [Over, vars, or_imp, forall_and]

end Term

/-- All variables of both sides are in the set. -/
structure Equation.Over (R : Set Var) (e : Equation) : Prop where
  lhs : e.lhs.Over R
  rhs : e.rhs.Over R

namespace Subst

/-- The bindings of the variables in the set lead to no other variables. -/
def Closed (R : Set Var) (s : Subst) : Prop :=
  ∀ x ∈ R, ∀ t, s.get? x = some t → t.Over R

variable {s : Subst} {x : Var} {t u : Term}

theorem Closed.extend (hs : s.Closed R) (ht : t.Over R) : (s.extend x t).Closed R := by
  intro y hy u hu
  rw [get?_extend] at hu
  split at hu
  · obtain rfl := Option.some.inj hu
    exact ht
  · exact hs y hy u hu

/-- Walks do not leave the set. -/
theorem Closed.walk? (hs : s.Closed R) (ht : t.Over R) (h : s.walk? t = some u) : u.Over R :=
  walk?_ind (fun x v hx ht => hs x (Term.over_var.1 ht) v hx) h ht

end Subst

/-! ### Moves -/

namespace Equation.Over

variable {s : Subst} {e : Equation} {u v : Term}

theorem bind (he : e.Over R) (hs : s.Closed R) (hu : s.walk? e.lhs = some u) (hv : s.walk? e.rhs = some v)
    {x : Var} {t : Term} (hm : Move.of u v = .bind x t) : x ∈ R ∧ t.Over R := by
  have huR := hs.walk? he.lhs hu
  have hvR := hs.walk? he.rhs hv
  obtain ⟨-, ⟨rfl, rfl⟩ | ⟨-, rfl, rfl⟩⟩ := Move.of_eq_bind hm
  · exact ⟨Term.over_var.1 huR, hvR⟩
  · exact ⟨Term.over_var.1 hvR, huR⟩

theorem split (he : e.Over R) (hs : s.Closed R) (hu : s.walk? e.lhs = some u) (hv : s.walk? e.rhs = some v)
    {cars cdrs : Equation} (hm : Move.of u v = .split cars cdrs) : cars.Over R ∧ cdrs.Over R := by
  have huR := hs.walk? he.lhs hu
  have hvR := hs.walk? he.rhs hv
  obtain ⟨i, j, rfl, rfl⟩ := Move.of_eq_split hm
  rw [Term.over_pair] at huR hvR
  exact ⟨⟨huR.1, hvR.1⟩, ⟨huR.2, hvR.2⟩⟩

end Equation.Over

/-! ### Substitutions that agree on a closed set -/

/-- The set is closed under the first substitution, and both have the same bindings for its members. -/
structure Subst.AgreeOn (R : Set Var) (s s' : Subst) : Prop where
  closed : s.Closed R
  get? : ∀ x ∈ R, s'.get? x = s.get? x

namespace Subst.AgreeOn

variable {s s' : Subst} {x : Var} {t : Term}

theorem symm (h : s.AgreeOn R s') : s'.AgreeOn R s := by
  constructor
  · intro x hx t ht
    rw [h.get? x hx] at ht
    exact h.closed x hx t ht
  · intro x hx
    exact (h.get? x hx).symm

theorem extend (h : s.AgreeOn R s') (ht : t.Over R) : (s.extend x t).AgreeOn R (s'.extend x t) := by
  constructor
  · exact h.closed.extend ht
  · intro y hy
    rw [get?_extend, get?_extend, h.get? y hy]

private theorem chase? (h : s.AgreeOn R s') (n : Nat) (hx : x ∈ R) : s'.chase? n x = s.chase? n x := by
  induction n generalizing x with
  | zero =>
    rw [Subst.chase?, Subst.chase?, h.get? x hx]
  | succ n ih =>
    rw [Subst.chase?, Subst.chase?, h.get? x hx]
    cases hxt : s.get? x with
    | none => rfl
    | some t =>
      cases t with
      | var y => exact ih (Term.over_var.1 (h.closed x hx _ hxt))
      | _ => rfl

/-- Walks do not depend on the number of the bindings. -/
theorem walk? (h : s.AgreeOn R s') (ht : t.Over R) : s'.walk? t = s.walk? t := by
  cases t with
  | var x =>
    apply Option.ext
    intro u
    rw [walk?_var_eq_some_iff, walk?_var_eq_some_iff]
    simp only [h.chase? _ (Term.over_var.1 ht)]
  | _ => rfl

end Subst.AgreeOn

/-! ### Runs -/

/-- The substitution with new bindings, the latest first, which nothing checks. -/
def Subst.extendAll (s : Subst) (new : List (Var × Term)) : Subst :=
  ⟨new ++ s.bindings, s.size + new.length⟩

theorem Subst.extendAll_extend (s : Subst) (x : Var) (t : Term) (new : List (Var × Term)) :
    (s.extend x t).extendAll new = s.extendAll (new ++ [(x, t)]) := by
  simp [extendAll, extend, ← Nat.add_assoc, Nat.add_right_comm]

/-- A run does the same under every substitution that agrees with its own where it can look. -/
theorem Solves.exists_of_agreeOn {s s' : Subst} {pending : List Equation} {o : Outcome} (h : Solves s pending o)
    (hs : s.AgreeOn R s') (hpending : ∀ e ∈ pending, e.Over R) :
    ∃ new? : Option (List (Var × Term)),
      o.store? = new?.map s.extendAll ∧ Solves s' pending ⟨o.events, new?.map s'.extendAll⟩ := by
  induction h generalizing s' with
  | done s => exact ⟨some [], rfl, .done s'⟩
  | agree hu hv hm _ ih =>
    obtain ⟨he, hrest⟩ := List.forall_mem_cons.1 hpending
    obtain ⟨new?, hnew, hrun⟩ := ih hs hrest
    rw [← hs.walk? he.lhs] at hu
    rw [← hs.walk? he.rhs] at hv
    exact ⟨new?, hnew, .agree hu hv hm hrun⟩
  | @bind s e rest u v t x o hu hv hm _ ih =>
    obtain ⟨he, hrest⟩ := List.forall_mem_cons.1 hpending
    obtain ⟨-, ht⟩ := he.bind hs.closed hu hv hm
    obtain ⟨new?, hnew, hrun⟩ := ih (hs.extend ht) hrest
    rw [← hs.walk? he.lhs] at hu
    rw [← hs.walk? he.rhs] at hv
    -- the new binding is the oldest of those that the run makes
    have hextend : ∀ r : Subst, new?.map (r.extend x t).extendAll =
        (new?.map fun new => new ++ [(x, t)]).map r.extendAll := by
      intro r
      rw [Option.map_map]
      exact Option.map_congr fun new _ => r.extendAll_extend x t new
    refine ⟨new?.map fun new => new ++ [(x, t)], ?_, ?_⟩
    · rw [← hextend]
      exact hnew
    · rw [← hextend]
      exact .bind hu hv hm hrun
  | split hu hv hm _ ih =>
    obtain ⟨he, hrest⟩ := List.forall_mem_cons.1 hpending
    obtain ⟨hcars, hcdrs⟩ := he.split hs.closed hu hv hm
    obtain ⟨new?, hnew, hrun⟩ := ih hs (List.forall_mem_cons.2 ⟨hcars, List.forall_mem_cons.2 ⟨hcdrs, hrest⟩⟩)
    rw [← hs.walk? he.lhs] at hu
    rw [← hs.walk? he.rhs] at hv
    exact ⟨new?, hnew, .split hu hv hm hrun⟩
  | clash hu hv hm =>
    obtain ⟨he, -⟩ := List.forall_mem_cons.1 hpending
    rw [← hs.walk? he.lhs] at hu
    rw [← hs.walk? he.rhs] at hv
    exact ⟨none, rfl, .clash hu hv hm⟩

end RelLogic
