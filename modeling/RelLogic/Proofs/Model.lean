import RelLogic.Unify
import RelLogic.Proofs.Walk

/-!
# Models of terms

A model gives a value to the empty list and to every atom, and makes a value of the values of the two parts of a
pair, from which both parts can be told again.  In a free model these values are all different.  Finite trees are
a free model (`Tree.model`).

A valuation gives values to the variables, and through them to all terms.  It satisfies a substitution if each
bound variable has the value of the term it is bound to; walking a term does not change its value then
(`Model.eval_walk?`).
-/

namespace RelLogic

universe u

/-- Values for terms, in which the parts of a pair can be told from the value of the pair. -/
structure Model (D : Type u) where
  nil : D
  atom : Atom → D
  cons : D → D → D
  cons_inj : ∀ {a d b e}, cons a d = cons b e → a = b ∧ d = e

/-- A model in which the empty list, different atoms and pairs have different values. -/
structure FreeModel (D : Type u) extends Model D where
  atom_inj : ∀ {a b}, atom a = atom b → a = b
  nil_ne_atom : ∀ a, nil ≠ atom a
  nil_ne_cons : ∀ a d, nil ≠ cons a d
  atom_ne_cons : ∀ a b d, atom a ≠ cons b d

namespace Model

variable {D : Type u} (M : Model D) (ρ : Var → D)

/-- The value of a term under a valuation of the variables. -/
def eval : Term → D
  | .nil => M.nil
  | .atom _ a => M.atom a
  | .var x => ρ x
  | .pair _ a d => M.cons (eval a) (eval d)

/-- Both sides of the equation have the same value. -/
def Equates (e : Equation) : Prop :=
  M.eval ρ e.lhs = M.eval ρ e.rhs

/-- The valuation solves all the equations. -/
def EquatesAll (es : List Equation) : Prop :=
  ∀ e ∈ es, M.Equates ρ e

/-- Every bound variable has the value of the term that the substitution has for it. -/
def Satisfies (s : Subst) : Prop :=
  ∀ x t, s.get? x = some t → ρ x = M.eval ρ t

/-- The valuation agrees with every binding, also with one that a later binding of the variable hides. -/
def SatisfiesAll (s : Subst) : Prop :=
  ∀ b ∈ s.bindings, ρ b.1 = M.eval ρ b.2

variable {M ρ}

@[simp] theorem equatesAll_nil : M.EquatesAll ρ [] := by
  simp [EquatesAll]

@[simp] theorem equatesAll_cons {e : Equation} {es : List Equation} :
    M.EquatesAll ρ (e :: es) ↔ M.Equates ρ e ∧ M.EquatesAll ρ es := by
  simp [EquatesAll]

/-- A new binding of a variable that had none asks for one more equality. -/
theorem satisfies_extend {s : Subst} {x : Var} (hx : s.get? x = none) (t : Term) :
    M.Satisfies ρ (s.extend x t) ↔ M.Satisfies ρ s ∧ ρ x = M.eval ρ t := by
  constructor
  · intro h
    refine ⟨fun y u hy => h y u ?_, h x t (by simp [Subst.get?_extend])⟩
    have hne : y ≠ x := by
      rintro rfl
      rw [hx] at hy
      contradiction
    rw [Subst.get?_extend, if_neg hne, hy]
  · rintro ⟨hs, hxt⟩ y u hy
    rw [Subst.get?_extend] at hy
    split at hy
    · subst_vars
      rw [hxt, Option.some.inj hy]
    · exact hs y u hy

theorem satisfiesAll_extend {s : Subst} {x : Var} {t : Term} :
    M.SatisfiesAll ρ (s.extend x t) ↔ M.SatisfiesAll ρ s ∧ ρ x = M.eval ρ t := by
  simp [SatisfiesAll, Subst.extend, and_comm]

theorem SatisfiesAll.satisfies {s : Subst} (h : M.SatisfiesAll ρ s) : M.Satisfies ρ s := by
  intro x t hx
  exact h (x, t) (Subst.mem_bindings_of_get? hx)

/-! ### Walks -/

/-- A walk keeps the value of the term. -/
theorem eval_walk? {s : Subst} (hs : M.Satisfies ρ s) {t u : Term} (h : s.walk? t = some u) :
    M.eval ρ u = M.eval ρ t := by
  refine Subst.walk?_ind (P := fun v => M.eval ρ v = M.eval ρ t) (fun x v hx ht => ?_) h rfl
  rw [← ht, eval, hs x v hx]

end Model

/-! ### Finite trees -/

/-- A finite tree: a term without variables, in which serial numbers do not count. -/
inductive Tree
  | nil
  | atom (a : Atom)
  | cons (car cdr : Tree)

namespace Tree

/-- Finite trees are a free model. -/
def model : FreeModel Tree where
  nil := .nil
  atom := .atom
  cons := .cons
  cons_inj h := by injection h with h₁ h₂; exact ⟨h₁, h₂⟩
  atom_inj h := by injection h
  nil_ne_atom := nofun
  nil_ne_cons := nofun
  atom_ne_cons := nofun

end Tree

end RelLogic
