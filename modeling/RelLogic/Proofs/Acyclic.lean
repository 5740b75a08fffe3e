import RelLogic.Proofs.Walk

/-!
# Acyclic substitutions

A bound variable refers to the variables of the term it is bound to, at whatever depth they occur there.  A
substitution is acyclic if it binds no variable twice and no variable refers to itself, directly or through other
variables.  A chain of references that uses a new binding passes the new variable (`Subst.refers_extend_cases`),
so a binding of a variable that had none keeps a substitution acyclic unless the variable comes to refer to itself
(`Subst.Acyclic.extend`), which is to say, unless it can be reached from the term that it is bound to
(`Subst.Acyclic.extend_of_not_reaches`).
-/

namespace RelLogic

/-- The variables of a term, from left to right, each as often as it occurs. -/
def Term.vars : Term → List Var
  | .nil => []
  | .atom _ _ => []
  | .var x => [x]
  | .pair _ a d => a.vars ++ d.vars

namespace Subst

open Relation (TransGen ReflTransGen)

/-- The first variable is bound to a term in which the second occurs. -/
def Refers (s : Subst) (x y : Var) : Prop :=
  ∃ t, s.get? x = some t ∧ y ∈ t.vars

/-- No variable is bound twice, and none refers to itself through one or more bindings. -/
structure Acyclic (s : Subst) : Prop where
  nodup : s.bound.Nodup
  noLoop : ∀ x, ¬TransGen s.Refers x x

theorem acyclic_empty : empty.Acyclic := by
  refine ⟨List.nodup_nil, fun x h => ?_⟩
  obtain ⟨y, ⟨t, ht, -⟩, -⟩ := TransGen.head'_iff.1 h
  simp at ht

/-- In an acyclic substitution every walk comes to an end. -/
theorem Acyclic.ringFree {s : Subst} (hs : s.Acyclic) : s.RingFree := by
  intro x h
  exact hs.noLoop x (TransGen.mono (fun y z hyz => ⟨_, hyz, by simp [Term.vars]⟩) _ _ h)

/-! ### New bindings -/

theorem refers_extend {s : Subst} {x : Var} {t : Term} (hx : s.get? x = none) {y z : Var}
    (h : s.Refers y z) : (s.extend x t).Refers y z := by
  obtain ⟨u, hu, hz⟩ := h
  refine ⟨u, ?_, hz⟩
  have hne : y ≠ x := by
    rintro rfl
    rw [hx] at hu
    contradiction
  rw [get?_extend, if_neg hne, hu]

/-- A chain of references under a new binding either does without it or passes the new variable. -/
theorem refers_extend_cases {s : Subst} {x : Var} {t : Term} (hx : s.get? x = none) {y z : Var}
    (h : TransGen (s.extend x t).Refers y z) :
    TransGen s.Refers y z ∨
      ReflTransGen (s.extend x t).Refers y x ∧ TransGen (s.extend x t).Refers x z := by
  -- one reference: it is an old one unless it starts at the new variable
  have hstep : ∀ {a b}, (s.extend x t).Refers a b → s.Refers a b ∨ a = x := by
    rintro a b ⟨u, hu, hb⟩
    by_cases ha : a = x
    · exact .inr ha
    · rw [get?_extend, if_neg ha] at hu
      exact .inl ⟨u, hu, hb⟩
  induction h with
  | single hyb =>
    rcases hstep hyb with hold | rfl
    · exact .inl (.single hold)
    · exact .inr ⟨.refl, .single hyb⟩
  | tail _ hbc ih =>
    rcases ih with hyb | ⟨hyx, hxb⟩
    · rcases hstep hbc with hold | rfl
      · exact .inl (hyb.tail hold)
      · exact .inr ⟨(TransGen.mono (fun _ _ => refers_extend hx) _ _ hyb).to_reflTransGen, .single hbc⟩
    · exact .inr ⟨hyx, hxb.tail hbc⟩

/-- A substitution stays acyclic if a variable without a binding is bound and does not come to refer to itself. -/
theorem Acyclic.extend {s : Subst} (hs : s.Acyclic) {x : Var} {t : Term} (hx : s.get? x = none)
    (hxx : ¬TransGen (s.extend x t).Refers x x) : (s.extend x t).Acyclic := by
  constructor
  · rw [bound_extend, List.nodup_cons]
    exact ⟨get?_eq_none_iff.1 hx, hs.nodup⟩
  · intro y h
    rcases refers_extend_cases hx h with hold | ⟨hyx, hxy⟩
    · exact hs.noLoop y hold
    · exact hxx (hxy.trans_left hyx)

/-- The variable occurs in the term or is referred to by a variable of it, through any number of bindings. -/
def Reaches (s : Subst) (t : Term) (x : Var) : Prop :=
  ∃ y ∈ t.vars, ReflTransGen s.Refers y x

/-- A chain back to a newly bound variable does without the new binding. -/
theorem reflTransGen_of_extend {s : Subst} {x y : Var} {t : Term} (h : ReflTransGen (s.extend x t).Refers y x) :
    ReflTransGen s.Refers y x := by
  induction h using ReflTransGen.head_induction_on with
  | refl => exact .refl
  | @head y z hyz _ ih =>
    by_cases hy : y = x
    · rw [hy]
    · obtain ⟨u, hu, hz⟩ := hyz
      rw [get?_extend, if_neg hy] at hu
      exact ih.head ⟨u, hu, hz⟩

theorem Acyclic.extend_of_not_reaches {s : Subst} (hs : s.Acyclic) {x : Var} {t : Term} (hx : s.get? x = none)
    (h : ¬s.Reaches t x) : (s.extend x t).Acyclic := by
  apply hs.extend hx
  intro hxx
  obtain ⟨y, ⟨u, hu, hy⟩, hyx⟩ := TransGen.head'_iff.1 hxx
  rw [get?_extend, if_pos rfl] at hu
  obtain rfl := Option.some.inj hu
  exact h ⟨y, hy, reflTransGen_of_extend hyx⟩

/-- Variables without bindings lead nowhere, so a term of other such variables can be bound to. -/
theorem Acyclic.extend_of_unbound {s : Subst} (hs : s.Acyclic) {x : Var} {t : Term} (hx : s.get? x = none)
    (ht : ∀ y ∈ t.vars, y ≠ x ∧ s.get? y = none) : (s.extend x t).Acyclic := by
  apply hs.extend_of_not_reaches hx
  rintro ⟨y, hy, hyx⟩
  obtain ⟨hne, hunbound⟩ := ht y hy
  rcases ReflTransGen.cases_head hyx with rfl | ⟨z, ⟨u, hu, -⟩, -⟩
  · exact hne rfl
  · rw [hunbound] at hu
    contradiction

end Subst

end RelLogic
