import Mathlib.Data.Set.Insert
import RelLogic.Proofs.Depth
import RelLogic.Proofs.Enumeration
import RelLogic.Proofs.Region

/-!
# What unification depends on

A set of variables that is closed under a substitution holds all that can be reached from a term over it.  Under
another substitution with the same bindings for its members, terms over it walk and resolve to the same terms, and
unifying two of them makes the same bindings in the same order, however different the substitutions are elsewhere
(`unify?_local`).  So neither the order of the bindings matters, if no variable is bound twice, nor what is bound out
of reach.
-/

namespace RelLogic

variable {R : Set Var}

namespace Subst

variable {s s' : Subst} {t : Term}

/-! ### Resolving -/

theorem AgreeOn.resolveAfter (h : s.AgreeOn R s') (ht : t.Over R) (budget : Nat) (met : List Term) :
    s'.resolveAfter budget met t = s.resolveAfter budget met t := by
  induction budget, met, t using resolveAfter_ind (s := s) with
  | leaf budget met t u hpair hu hleaf =>
    rw [resolveAfter_of_leaf hpair hu hleaf, resolveAfter_of_leaf hpair ((h.walk? ht).trans hu) hleaf]
  | pair budget met i a d iha ihd =>
    obtain ⟨ha, hd⟩ := Term.over_pair.1 ht
    funext σ
    rw [resolveAfter_pair, resolveAfter_pair, iha ha]
    simp only [ihd _ hd]
  | enter n met x i a d hx ih =>
    rw [resolveAfter_of_pair hx, resolveAfter_of_pair ((h.walk? ht).trans hx)]
    exact ih (h.closed.walk? ht hx)
  | stuck budget met x hx =>
    funext σ
    rw [resolveAfter_of_stuck hx, resolveAfter_of_stuck]
    intro u hu
    exact hx u ((h.walk? ht).symm.trans hu)

/-- Resolving does not depend on the number of the bindings. -/
theorem AgreeOn.resolve? (h : s.AgreeOn R s') (ht : t.Over R) : s'.resolve? t = s.resolve? t := by
  funext σ
  apply Option.ext
  intro p
  rw [resolve?_eq_some_iff, resolve?_eq_some_iff]
  simp only [h.resolveAfter ht]

/-! ### Substitutions that agree -/

/-- Where no variable is bound twice, the order of the bindings does not matter. -/
theorem agreeOn_of_perm (hs : s.bound.Nodup) (h : s.bindings.Perm s'.bindings) : s.AgreeOn Set.univ s' := by
  have hs' : s'.bound.Nodup := (h.map Prod.fst).nodup_iff.1 hs
  refine ⟨fun _ _ _ _ _ _ => trivial, fun x _ => Option.ext fun t => ?_⟩
  constructor
  · intro hx
    exact get?_of_mem_bindings hs (h.mem_iff.2 (mem_bindings_of_get? hx))
  · intro hx
    exact get?_of_mem_bindings hs' (h.mem_iff.1 (mem_bindings_of_get? hx))

/-- Bindings of other variables do not matter. -/
theorem agreeOn_extendAll (hs : s.Closed R) {new : List (Var × Term)} (hnew : ∀ b ∈ new, b.1 ∉ R) :
    s.AgreeOn R (s.extendAll new) := by
  refine ⟨hs, fun x hx => ?_⟩
  have hlookup : new.lookup x = none := by
    rw [List.lookup_eq_none_iff]
    intro b hb
    have hne : x ≠ b.1 := by
      rintro rfl
      exact hnew b hb hx
    simpa using hne
  rw [get?, extendAll, List.lookup_append, hlookup, Option.none_or]
  rfl

end Subst

/-! ### Unifying and searching -/

namespace Equation

variable {e : Equation} {s s' : Subst}

/-- Under both substitutions unifying the sides of the equation ends, or under neither.  It causes the same events,
and fails under both or makes the same new bindings in the same order. -/
structure UnifiedAlike (e : Equation) (s s' : Subst) : Prop where
  ends : (∃ fuel o, unify? fuel e.lhs e.rhs s = some o) ↔ ∃ fuel o, unify? fuel e.lhs e.rhs s' = some o
  outcome : ∀ {fuel fuel' o o'}, unify? fuel e.lhs e.rhs s = some o → unify? fuel' e.lhs e.rhs s' = some o' →
    o.events = o'.events ∧
      ∃ new? : Option (List (Var × Term)), o.store? = new?.map s.extendAll ∧ o'.store? = new?.map s'.extendAll

/-- From both substitutions the search of the equation ends, or from neither.  It leaves the same record, and has no
result from both or the same new bindings in the same order. -/
structure SearchedAlike (e : Equation) (s s' : Subst) : Prop where
  ends : ∀ past, (∃ fuel r, (Goal.prim e).solutions fuel s past = some r) ↔
    ∃ fuel r, (Goal.prim e).solutions fuel s' past = some r
  results : ∀ {fuel fuel' past r r'}, (Goal.prim e).solutions fuel s past = some r →
    (Goal.prim e).solutions fuel' s' past = some r' →
    r.2 = r'.2 ∧ ∃ new? : Option (List (Var × Term)),
      r.1 = (new?.map s.extendAll).toList ∧ r'.1 = (new?.map s'.extendAll).toList

theorem unifiedAlike_of_agreeOn (h : s.AgreeOn R s') (he : e.Over R) : e.UnifiedAlike s s' := by
  have hpending : ∀ e' ∈ [e], e'.Over R := by simpa using he
  constructor
  · constructor
    · rintro ⟨fuel, o, ho⟩
      obtain ⟨new?, -, hrun⟩ := (solves_of_solve? ho).exists_of_agreeOn h hpending
      obtain ⟨fuel', ho'⟩ := hrun.exists_solve?
      exact ⟨fuel', _, ho'⟩
    · rintro ⟨fuel', o', ho'⟩
      obtain ⟨new?, -, hrun⟩ := (solves_of_solve? ho').exists_of_agreeOn h.symm hpending
      obtain ⟨fuel, ho⟩ := hrun.exists_solve?
      exact ⟨fuel, _, ho⟩
  · intro fuel fuel' o o' ho ho'
    obtain ⟨new?, hnew, hrun⟩ := (solves_of_solve? ho).exists_of_agreeOn h hpending
    obtain rfl := (solves_of_solve? ho').unique hrun
    exact ⟨rfl, new?, hnew, rfl⟩

theorem exists_search_iff {past : List Event} :
    (∃ fuel r, e.search fuel s past = some r) ↔ ∃ fuel o, unify? fuel e.lhs e.rhs s = some o := by
  simp only [Prod.exists, search_eq_some_iff]
  constructor
  · rintro ⟨fuel, -, -, o, ho, -⟩
    exact ⟨fuel, o, ho⟩
  · rintro ⟨fuel, o, ho⟩
    exact ⟨fuel, _, _, o, ho, rfl, rfl⟩

/-- The search of an equation does what unifying its sides does. -/
theorem UnifiedAlike.searchedAlike (h : e.UnifiedAlike s s') : e.SearchedAlike s s' := by
  constructor
  · intro past
    exact exists_search_iff.trans (h.ends.trans exists_search_iff.symm)
  · rintro fuel fuel' past ⟨results, mid⟩ ⟨results', mid'⟩ hr hr'
    obtain ⟨o, ho, rfl, rfl⟩ := search_eq_some_iff.1 hr
    obtain ⟨o', ho', rfl, rfl⟩ := search_eq_some_iff.1 hr'
    obtain ⟨hevents, new?, hnew, hnew'⟩ := h.outcome ho ho'
    exact ⟨by rw [hevents], new?, by rw [hnew], by rw [hnew']⟩

theorem over_univ (e : Equation) : e.Over Set.univ :=
  ⟨fun _ _ => trivial, fun _ _ => trivial⟩

end Equation

/-! ### Main statement -/

/-- Let a set of variables be closed under a substitution, and let another one have the same bindings for its members.
Two terms over the set are unified alike under both, and all terms over it are walked and resolved to the same terms.
In particular an equation has the same effect from any rearrangement of bindings in which no variable is bound twice,
and with bindings added for variables that cannot be reached from it. -/
theorem unify?_local {s s' : Subst} (h : s.AgreeOn R s') {u v : Term} (hu : u.Over R) (hv : v.Over R) :
    Equation.UnifiedAlike ⟨u, v⟩ s s' ∧
      (∀ t, t.Over R → s.walk? t = s'.walk? t ∧ ∀ σ, s.resolve? t σ = s'.resolve? t σ) ∧
      (∀ (e : Equation) (r r' : Subst), r.bound.Nodup → r.bindings.Perm r'.bindings → e.SearchedAlike r r') ∧
      ∀ (e : Equation) (r : Subst) (Q : Set Var) (new : List (Var × Term)), e.Over Q → r.Closed Q →
        (∀ b ∈ new, b.1 ∉ Q) → e.SearchedAlike r (r.extendAll new) := by
  refine ⟨Equation.unifiedAlike_of_agreeOn h ⟨hu, hv⟩, fun t ht => ⟨(h.walk? ht).symm, fun σ => ?_⟩, ?_, ?_⟩
  · exact (congrFun (h.resolve? ht) σ).symm
  · intro e r r' hr hperm
    exact (Equation.unifiedAlike_of_agreeOn (Subst.agreeOn_of_perm hr hperm) e.over_univ).searchedAlike
  · intro e r Q new he hr hnew
    exact (Equation.unifiedAlike_of_agreeOn (Subst.agreeOn_extendAll hr hnew) he).searchedAlike

/-- The substitution in which `y` is bound to `(x)`. -/
private def yList : Subst :=
  ⟨[(⟨1, "y"⟩, .pair 0 (.var ⟨0, "x"⟩) .nil)], 1⟩

/-- The same, with a binding of `z` before and one of `w` after. -/
private def yListAmong : Subst :=
  ⟨[(⟨3, "w"⟩, .var ⟨2, "z"⟩), (⟨1, "y"⟩, .pair 0 (.var ⟨0, "x"⟩) .nil), (⟨2, "z"⟩, .var ⟨1, "y"⟩)], 3⟩

/-- From both substitutions unifying `y` with `(true)` binds `x` to `true`. -/
theorem unify?_local_list :
    yList.AgreeOn {⟨0, "x"⟩, ⟨1, "y"⟩} yListAmong ∧
      Equation.UnifiedAlike ⟨.var ⟨1, "y"⟩, .pair 2 (.atom 1 (.bool true)) .nil⟩ yList yListAmong ∧
      unify? 4 (.var ⟨1, "y"⟩) (.pair 2 (.atom 1 (.bool true)) .nil) yList =
        some ⟨[.extended ⟨0, "x"⟩ (.atom 1 (.bool true))],
          some (yList.extendAll [(⟨0, "x"⟩, .atom 1 (.bool true))])⟩ := by
  have h : yList.AgreeOn {⟨0, "x"⟩, ⟨1, "y"⟩} yListAmong := by
    constructor
    · rintro x (rfl | rfl) t ht
      · contradiction
      · obtain rfl := Option.some.inj ht
        simp [Term.Over, Term.vars]
    · rintro x (rfl | rfl) <;> rfl
  refine ⟨h, (unify?_local h ?_ ?_).1, rfl⟩
  · simp
  · simp [Term.Over, Term.vars]

end RelLogic
