import RelLogic.Proofs.Branches
import RelLogic.Proofs.CommonItems
import RelLogic.Proofs.Resolution
import RelLogic.Session.Call

/-!
# Where variables occur

A variable occurs in a substitution if it is bound there or occurs in a term that some variable is bound to, and it
does not matter whether a later binding hides the one it occurs in.  It occurs in a goal if it occurs in a term of one
of the primitive goals.

No variable ever comes from elsewhere.  Walking and looking up lead to terms whose variables occur in the substitution
or in the term one began with (`Subst.vars_of_walk?`, `Subst.vars_of_lookup?`), resolving puts together what walks lead
to (`Subst.vars_of_resolve?`), and unifying binds variables of these terms to these terms (`vars_of_unify?`).
-/

namespace RelLogic

variable {R R' : Set Var} {s : Subst} {t u : Term} {x : Var}

/-! ### Terms -/

namespace Term

@[simp] theorem over_nil : nil.Over R := by
  simp [Over, vars]

@[simp] theorem over_atom {i : Nat} {a : Atom} : (atom i a).Over R := by
  simp [Over, vars]

theorem Over.mono (h : t.Over R) (hR : R ⊆ R') : t.Over R' :=
  fun x hx => hR (h x hx)

theorem over_bare : t.bare.Over R ↔ t.Over R := by
  rw [Over, Over, vars_bare]

theorem Over.part? {p : Part} (h : t.Over R) (hu : t.part? p = .ok u) : u.Over R := by
  cases t with
  | pair i a d =>
    cases p <;> obtain rfl := Except.ok.inj hu
    · exact (over_pair.1 h).1
    · exact (over_pair.1 h).2
  | _ => cases hu

end Term

/-! ### Substitutions -/

namespace Subst

/-- The variables that are bound in a substitution and those of the terms that they are bound to. -/
def vars (s : Subst) : List Var :=
  s.bindings.flatMap fun b => b.1 :: b.2.vars

/-- All variables of the substitution are in the set. -/
def Over (R : Set Var) (s : Subst) : Prop :=
  ∀ x ∈ s.vars, x ∈ R

@[simp] theorem over_empty : empty.Over R := by
  simp [Over, vars, empty]

@[simp] theorem over_extend : (s.extend x t).Over R ↔ (x ∈ R ∧ t.Over R) ∧ s.Over R := by
  simp only [Over, vars, extend, List.flatMap_cons, List.cons_append, List.forall_mem_cons, List.forall_mem_append,
    Term.Over, and_assoc]

theorem Over.mono (h : s.Over R) (hR : R ⊆ R') : s.Over R' :=
  fun x hx => hR (h x hx)

theorem Over.of_mem (h : s.Over R) {b : Var × Term} (hb : b ∈ s.bindings) : b.1 ∈ R ∧ b.2.Over R := by
  have hvars : ∀ y ∈ b.1 :: b.2.vars, y ∈ R := fun y hy => h y (List.mem_flatMap.2 ⟨b, hb, hy⟩)
  exact List.forall_mem_cons.1 hvars

theorem Over.get? (h : s.Over R) (hx : s.get? x = some t) : t.Over R :=
  (h.of_mem (mem_bindings_of_get? hx)).2

theorem Over.closed (h : s.Over R) : s.Closed R :=
  fun _ _ _ ht => h.get? ht

/-- A variable that does not occur in a substitution is not bound there. -/
theorem Over.get?_eq_none (h : s.Over R) (hx : x ∉ R) : s.get? x = none := by
  rw [get?_eq_none_iff]
  intro hbound
  obtain ⟨b, hb, rfl⟩ := List.mem_map.1 hbound
  exact hx (h.of_mem hb).1

theorem Over.walk? (hs : s.Over R) (ht : t.Over R) (h : s.walk? t = some u) : u.Over R :=
  hs.closed.walk? ht h

theorem Over.lookup? (hs : s.Over R) (hx : x ∈ R) (h : s.lookup? x = some u) : u.Over R := by
  unfold Subst.lookup? at h
  split at h
  · obtain rfl := Option.some.inj h
    exact Term.over_var.2 hx
  · exact hs.walk? (hs.get? ‹_›) h

theorem Resolves.over (h : s.Resolves t u) (hs : s.Over R) (ht : t.Over R) : u.Over R := by
  induction h with
  | leaf hu _ => exact Term.over_bare.2 (hs.walk? ht hu)
  | pair hp _ _ iha ihd =>
    obtain ⟨ha, hd⟩ := Term.over_pair.1 (hs.walk? ht hp)
    exact Term.over_pair.2 ⟨iha ha, ihd hd⟩

theorem Over.resolve? (hs : s.Over R) (ht : t.Over R) {σ σ' : Supply} (h : s.resolve? t σ = some (u, σ')) :
    u.Over R :=
  Term.over_bare.1 ((resolves_of_resolve? h).over hs ht)

/-! ### Unification -/

/-- A run of the unifier binds variables of its equations and of the substitution to terms over them. -/
theorem Over.solves {pending : List Equation} {o : Outcome} {s' : Subst} (h : Solves s pending o) (hs : s.Over R)
    (hpending : ∀ e ∈ pending, e.Over R) (ho : o.store? = some s') : s'.Over R := by
  induction h with
  | done s =>
    obtain rfl := Option.some.inj ho
    exact hs
  | agree _ _ _ _ ih => exact ih hs (List.forall_mem_cons.1 hpending).2 ho
  | bind hu hv hm _ ih =>
    obtain ⟨he, hrest⟩ := List.forall_mem_cons.1 hpending
    exact ih (over_extend.2 ⟨he.bind hs.closed hu hv hm, hs⟩) hrest ho
  | split hu hv hm _ ih =>
    obtain ⟨he, hrest⟩ := List.forall_mem_cons.1 hpending
    obtain ⟨hcars, hcdrs⟩ := he.split hs.closed hu hv hm
    exact ih hs (List.forall_mem_cons.2 ⟨hcars, List.forall_mem_cons.2 ⟨hcdrs, hrest⟩⟩) ho
  | clash => cases ho

theorem Over.unify? (hs : s.Over R) {v : Term} (hu : u.Over R) (hv : v.Over R) {fuel : Nat} {o : Outcome} {s' : Subst}
    (h : unify? fuel u v s = some o) (ho : o.store? = some s') : s'.Over R :=
  hs.solves (solves_of_solve? h) (List.forall_mem_singleton.2 ⟨hu, hv⟩) ho

end Subst

/-! ### Results and what they are made from -/

/-- The variables that a walk leads to occur in the substitution or in the term. -/
theorem Subst.vars_of_walk? (h : s.walk? t = some u) : ∀ x ∈ u.vars, x ∈ s.vars ∨ x ∈ t.vars :=
  Over.walk? (R := {x | x ∈ s.vars ∨ x ∈ t.vars}) (fun _ => .inl) (fun _ => .inr) h

theorem Subst.vars_of_lookup? {y : Var} (h : s.lookup? y = some u) : ∀ x ∈ u.vars, x ∈ s.vars ∨ x = y :=
  Over.lookup? (R := {x | x ∈ s.vars ∨ x = y}) (fun _ => .inl) (.inr rfl) h

/-- The variables of a resolved term occur in the substitution or in the term. -/
theorem Subst.vars_of_resolve? {σ σ' : Supply} (h : s.resolve? t σ = some (u, σ')) :
    ∀ x ∈ u.vars, x ∈ s.vars ∨ x ∈ t.vars :=
  Over.resolve? (R := {x | x ∈ s.vars ∨ x ∈ t.vars}) (fun _ => .inl) (fun _ => .inr) h

/-- The variables of an extended substitution occur in the substitution or in the unified terms. -/
theorem vars_of_unify? {fuel : Nat} {v : Term} {o : Outcome} {s' : Subst} (h : unify? fuel u v s = some o)
    (ho : o.store? = some s') : ∀ x ∈ s'.vars, x ∈ s.vars ∨ x ∈ u.vars ∨ x ∈ v.vars :=
  Subst.Over.unify? (R := {x | x ∈ s.vars ∨ x ∈ u.vars ∨ x ∈ v.vars}) (fun _ => .inl) (fun _ h => .inr (.inl h))
    (fun _ h => .inr (.inr h)) h ho

/-! ### Goals -/

/-- The terms of a primitive goal. -/
def Literal.terms : Literal → List Term
  | .eq e => [e.lhs, e.rhs]
  | .call c => c.args

namespace Goal

section

variable {π ρ : Type}

mutual

/-- The primitive goals in a goal, from left to right. -/
def prims : Goal π → List π
  | .prim p => [p]
  | .succeed => []
  | .fail => []
  | .disj g h => g.prims ++ h.prims
  | .conj g h => g.prims ++ h.prims
  | .disjAll gs => primsAll gs
  | .conjAll gs => primsAll gs

/-- The primitive goals in goals, from left to right. -/
def primsAll : List (Goal π) → List π
  | [] => []
  | g :: gs => g.prims ++ primsAll gs

end

/-- The goals that a goal is put together from. -/
def parts : Goal π → List (Goal π)
  | .disj g h => [g, h]
  | .conj g h => [g, h]
  | .disjAll gs => gs
  | .conjAll gs => gs
  | _ => []

theorem primsAll_eq_flatMap (gs : List (Goal π)) : primsAll gs = gs.flatMap prims := by
  induction gs with
  | nil => rfl
  | cons g gs ih => rw [primsAll, ih, List.flatMap_cons]

/-- A goal that is not primitive has the primitive goals of its parts. -/
theorem prims_eq_flatMap {g : Goal π} (hg : ∀ p, g ≠ .prim p) : g.prims = g.parts.flatMap prims := by
  cases g with
  | prim p => exact (hg p rfl).elim
  | succeed | fail => rfl
  | disj g h | conj g h => simp [prims, parts]
  | disjAll gs | conjAll gs => simp [prims, parts, primsAll_eq_flatMap]

theorem prims_map (f : π → ρ) (g : Goal π) : (g.map f).prims = g.prims.map f := by
  have hall : ∀ gs : List (Goal π), (∀ g ∈ gs, (g.map f).prims = g.prims.map f) →
      primsAll (mapAll f gs) = (primsAll gs).map f := by
    intro gs hgs
    rw [mapAll_eq_map, primsAll_eq_flatMap, primsAll_eq_flatMap, List.flatMap_map, List.map_flatMap]
    exact List.flatMap_congr hgs
  induction g using Goal.ind with
  | disj g h ihg ihh | conj g h ihg ihh => rw [map, prims, prims, List.map_append, ihg, ihh]
  | disjAll gs ih | conjAll gs ih => rw [map, prims, prims, hall gs ih]
  | _ => rfl

end

/-- The variables of the terms of a goal. -/
def vars (g : Goal Literal) : List Var :=
  g.prims.flatMap fun l => l.terms.flatMap Term.vars

/-- All variables of the goal are in the set. -/
def Over (R : Set Var) (g : Goal Literal) : Prop :=
  ∀ x ∈ g.vars, x ∈ R

variable {g h : Goal Literal}

theorem over_iff : g.Over R ↔ ∀ l ∈ g.prims, ∀ t ∈ l.terms, t.Over R := by
  simp only [Over, vars, List.forall_mem_flatMap, Term.Over]

theorem Over.mono (h : g.Over R) (hR : R ⊆ R') : g.Over R' :=
  fun x hx => hR (h x hx)

theorem over_prim {l : Literal} : (prim l).Over R ↔ ∀ t ∈ l.terms, t.Over R := by
  simp [over_iff, prims]

theorem over_of_parts (hg : ∀ l, g ≠ .prim l) (hparts : ∀ h ∈ g.parts, h.Over R) : g.Over R := by
  rw [over_iff, prims_eq_flatMap hg, List.forall_mem_flatMap]
  exact fun h hh => over_iff.1 (hparts h hh)

theorem Over.part (hg : g.Over R) (hh : h ∈ g.parts) : h.Over R := by
  have hprim : ∀ l, g ≠ .prim l := by
    rintro l rfl
    cases hh
  rw [over_iff, prims_eq_flatMap hprim, List.forall_mem_flatMap] at hg
  exact over_iff.2 (hg h hh)

/-- The equations of a goal that an item equals a term have the term on one side and an item on the other. -/
theorem prims_of_member {l : Term} {g : Goal Equation} (h : member t l = .ok g) :
    ∃ items, l.items? = .ok items ∧ g.prims = items.map fun item => ⟨t, item⟩ := by
  obtain ⟨items, hitems, hg⟩ := exists_of_bind_eq_ok h
  obtain rfl := Except.ok.inj hg
  refine ⟨items, hitems, ?_⟩
  rw [prims, primsAll_eq_flatMap, List.flatMap_map]
  exact List.map_eq_flatMap.symm

theorem over_of_member {l : Term} {g : Goal Equation} (ht : t.Over R) (hl : l.Over R) (h : member t l = .ok g) :
    g.ofEquations.Over R := by
  obtain ⟨items, hitems, hprims⟩ := prims_of_member h
  have hitem : ∀ item ∈ items, item.Over R := fun item hi x hx => hl x (Term.vars_subset_of_items? hitems hi hx)
  rw [over_iff, ofEquations, prims_map, hprims]
  simp only [List.map_map, List.forall_mem_map, Function.comp_apply, Literal.terms, List.forall_mem_cons]
  exact fun item hi => ⟨ht, hitem item hi, nofun⟩

theorem over_of_common {l₁ l₂ : Term} {g : Goal Equation} (hx : x ∈ R) (h₁ : l₁.Over R) (h₂ : l₂.Over R)
    (h : common x l₁ l₂ = .ok g) : g.ofEquations.Over R := by
  obtain ⟨g₁, hg₁, h⟩ := exists_of_bind_eq_ok h
  obtain ⟨g₂, hg₂, hg⟩ := exists_of_bind_eq_ok h
  obtain rfl := Except.ok.inj hg
  have hvar : (Term.var x).Over R := Term.over_var.2 hx
  exact over_of_parts nofun (List.forall_mem_cons.2 ⟨over_of_member hvar h₁ hg₁,
    List.forall_mem_singleton.2 (over_of_member hvar h₂ hg₂)⟩)

end Goal

end RelLogic
