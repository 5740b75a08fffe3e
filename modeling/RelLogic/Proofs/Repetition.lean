import RelLogic.Proofs.Enumeration
import RelLogic.Proofs.Invariant
import RelLogic.Proofs.Sharing

/-!
# Equations that hold already

Under an acyclic substitution two terms resolve to the same tree if and only if unifying them binds nothing
(`unify?_settled`).  One direction goes through both terms along the tree that they share.  For the other, resolving
gives a valuation of the variables by terms that satisfies the substitution, and the value of a term under it is what
the term resolves to (`Subst.Acyclic.exists_resolution`).

An equation that was met once is met again without a binding in every acyclic substitution that comes later: nothing
that happens to a substitution takes a binding away (`Subst.suffix_of_becomes`).
-/

namespace RelLogic

/-! ### Substitutions that come later -/

/-- The second substitution is the result of a unification, or of a goal of a session, from the first. -/
inductive Subst.Becomes : Subst → Subst → Prop
  | unified {s r : Subst} {fuel : Nat} {u v : Term} {events : List Event}
      (h : unify? fuel u v s = some ⟨events, some r⟩) : Becomes s r
  | found {s r : Subst} {history : History} {fuel : Nat} {g : Goal Literal} {st st' : Progress}
      {past past' : List Event} {results : List Subst}
      (h : g.search (Literal.search history fuel) s st past = some ((results, st'), past')) (hr : r ∈ results) :
      Becomes s r

/-- What unification keeps, everything keeps that happens to a substitution. -/
theorem KeptByUnify.becomes {P : Subst → Prop} (hP : KeptByUnify P) {s r : Subst}
    (h : Relation.ReflTransGen Subst.Becomes s r) (hs : P s) : P r := by
  induction h with
  | refl => exact hs
  | tail _ hstep ih =>
    cases hstep with
    | unified h => exact hP h ih
    | found h hr => exact Goal.search_keeps hP _ _ _ _ ih _ _ _ _ _ h _ hr

namespace Subst

/-- No binding is ever lost, and new ones stand before the old ones. -/
theorem suffix_of_becomes {s r : Subst} (h : Relation.ReflTransGen Becomes s r) : s.bindings <:+ r.bindings := by
  have hkept : KeptByUnify fun r => s.bindings <:+ r.bindings := by
    apply keptByUnify_of_canBind
    intro r x t _ hr
    exact hr.trans (List.suffix_cons (x, t) r.bindings)
  exact hkept.becomes h (List.suffix_refl s.bindings)

end Subst

/-! ### Terms as values -/

/-- Bare terms are a free model. -/
def Term.model : FreeModel Term where
  nil := .nil
  atom := .atom 0
  cons := .pair 0
  cons_inj h := by injection h with _ h₁ h₂; exact ⟨h₁, h₂⟩
  atom_inj h := by injection h
  nil_ne_atom := nofun
  nil_ne_cons := nofun
  atom_ne_cons := nofun

theorem Term.eval_var (t : Term) : Term.model.eval .var t = t.bare := by
  induction t with
  | pair i a d iha ihd =>
    rw [Model.eval, iha, ihd]
    rfl
  | _ => rfl

namespace Subst

/-- A valuation by terms satisfies an acyclic substitution and gives each term the tree that it resolves to. -/
theorem Acyclic.exists_resolution {s : Subst} (hs : s.Acyclic) :
    ∃ ρ : Var → Term, Term.model.SatisfiesAll ρ s ∧ ∀ {t r}, s.Resolves t r → Term.model.eval ρ t = r := by
  obtain ⟨ρ, hρ, hfree⟩ := hs.exists_solution Term.model.toModel Term.var
  refine ⟨ρ, hρ, ?_⟩
  intro t r h
  calc Term.model.eval ρ t
    _ = Term.model.eval ρ r := (h.eval_eq hρ.satisfies).symm
    _ = Term.model.eval .var r := Model.eval_congr fun y hy => hfree y (h.unbound hy)
    _ = r := by rw [Term.eval_var, h.bare]

/-! ### Terms that resolve to one tree -/

/-- Whether two terms resolve to the same tree. -/
def alike? (s : Subst) (u v : Term) : Fresh? Bool := do
  let r ← s.resolve? u
  let r' ← s.resolve? v
  return r.same r'

theorem alike?_iff {s : Subst} (hs : s.Acyclic) {u v : Term} (σ : Supply) :
    (∃ σ', s.alike? u v σ = some (true, σ')) ↔ ∃ r, s.Resolves u r ∧ s.Resolves v r := by
  obtain ⟨r, σ₁, hr⟩ := exists_resolve? hs u σ
  obtain ⟨r', σ₂, hr'⟩ := exists_resolve? hs v σ₁
  have htree := resolves_of_resolve? hr
  have htree' := resolves_of_resolve? hr'
  have hvalue : s.alike? u v σ = some (r.same r', σ₂) := by
    rw [alike?, bind_apply, hr, Option.bind_some, bind_apply, hr']
    rfl
  rw [hvalue]
  constructor
  · rintro ⟨σ', h⟩
    have hsame : r.same r' = true := congrArg Prod.fst (Option.some.inj h)
    rw [← Term.same_iff.1 hsame] at htree'
    exact ⟨r.bare, htree, htree'⟩
  · rintro ⟨r₀, hu, hv⟩
    have hsame : r.same r' = true := by
      rw [Term.same_iff, htree.unique hu, htree'.unique hv]
    exact ⟨σ₂, by rw [hsame]⟩

end Subst

theorem Move.of_leaf {u v : Term} (huv : u.bare = v.bare) (hleaf : u.isPair = false) : Move.of u v = .agree := by
  obtain hm | ⟨cars, cdrs, hm, -⟩ := Move.of_eq_agree_or_split huv
  · exact hm
  · obtain ⟨i, j, rfl, -⟩ := Move.of_eq_split hm
    simp [Term.isPair, Term.asPair?] at hleaf

/-- Two terms that resolve to one tree are met without a binding or an event. -/
theorem solves_cons_of_resolves {s : Subst} {u v r : Term} {rest : List Equation} {o : Outcome} (hu : s.Resolves u r)
    (hv : s.Resolves v r) (h : Solves s rest o) : Solves s (⟨u, v⟩ :: rest) o := by
  induction hu generalizing v rest with
  | @leaf u u' hwu hleaf =>
    generalize hr : u'.bare = r at hv
    cases hv with
    | @leaf _ v' hwv _ => exact .agree hwu hwv (Move.of_leaf hr hleaf) h
    | pair _ _ _ => cases u' <;> simp_all [Term.bare, Term.isPair, Term.asPair?]
  | @pair u a d a' d' i hwu _ _ iha ihd =>
    generalize hr : Term.pair 0 a' d' = r at hv
    cases hv with
    | @leaf _ v' hwv hleaf => cases v' <;> simp_all [Term.bare, Term.isPair, Term.asPair?]
    | @pair _ b e b' e' j hwv hb he =>
      obtain ⟨rfl, rfl⟩ : a' = b' ∧ d' = e' := by simpa using hr
      by_cases hsame : Term.pair i a d = Term.pair j b e
      · exact .agree hwu hwv (hsame ▸ Move.of_self _) h
      · have hm : Move.of (.pair i a d) (.pair j b e) = .split ⟨a, b⟩ ⟨d, e⟩ := by
          simp only [Move.of, hsame, if_false]
        exact .split hwu hwv hm (iha hb (ihd he h))

/-- Terms that were unified resolve to one tree in every acyclic substitution that comes later. -/
theorem exists_resolves_of_becomes {fuel : Nat} {u v : Term} {s s₁ s₂ : Subst} {events : List Event}
    (h : unify? fuel u v s = some ⟨events, some s₁⟩) (hlater : Relation.ReflTransGen Subst.Becomes s₁ s₂)
    (hs₂ : s₂.Acyclic) : ∃ r, s₂.Resolves u r ∧ s₂.Resolves v r := by
  obtain ⟨r, hr⟩ := hs₂.exists_resolves u
  obtain ⟨r', hr'⟩ := hs₂.exists_resolves v
  obtain ⟨ρ, hρ, hvalue⟩ := hs₂.exists_resolution
  have hρ₁ : Term.model.SatisfiesAll ρ s₁ := fun b hb => hρ b ((Subst.suffix_of_becomes hlater).subset hb)
  have hequal : Term.model.eval ρ u = Term.model.eval ρ v := ((unify?_mostGeneral h Term.model ρ).1 hρ₁.satisfies).2
  rw [hvalue hr, hvalue hr'] at hequal
  rw [← hequal] at hr'
  exact ⟨r, hr, hr'⟩

theorem eq_of_size_eq {s s' : Subst} {pending : List Equation} {o : Outcome} (h : Solves s pending o)
    (hs' : o.store? = some s') (hsize : s'.size = s.size) : s' = s := by
  obtain ⟨new, rfl⟩ := h.exists_append hs'
  have hlength : new.length = 0 := by
    simp only [Subst.extendAll] at hsize
    omega
  rw [List.length_eq_zero_iff.1 hlength]
  rfl

/-- Terms that resolve to one tree are unified by leaving the substitution as it is. -/
theorem exists_unify?_of_resolves {s : Subst} {u v r : Term} (hu : s.Resolves u r) (hv : s.Resolves v r) :
    ∃ fuel, unify? fuel u v s = some ⟨[], some s⟩ :=
  (solves_cons_of_resolves hu hv (.done s)).exists_solve?

/-! ### Main statement -/

/-- In an acyclic substitution, unifying two terms succeeds without a new binding if and only if they resolve to the
same tree.  After two terms were unified, they resolve to the same tree in every acyclic substitution that comes of
unifications and goals from the result, and their equation has that substitution, unchanged, as its only result. -/
theorem unify?_settled (u v : Term) (s : Subst) :
    (s.Acyclic → ∀ σ, (∃ fuel events s', unify? fuel u v s = some ⟨events, some s'⟩ ∧ s'.size = s.size) ↔
      ∃ σ', s.alike? u v σ = some (true, σ')) ∧
    (∀ fuel events s₁ s₂, unify? fuel u v s = some ⟨events, some s₁⟩ →
      Relation.ReflTransGen Subst.Becomes s₁ s₂ → s₂.Acyclic →
        (∀ σ, ∃ σ', s₂.alike? u v σ = some (true, σ')) ∧
        ∃ fuel, ∀ past, (Goal.prim ⟨u, v⟩).solutions fuel s₂ past = some ([s₂], past)) := by
  constructor
  · intro hs σ
    rw [Subst.alike?_iff hs]
    constructor
    · rintro ⟨fuel, events, s', h, hsize⟩
      obtain rfl := eq_of_size_eq (solves_of_solve? h) rfl hsize
      exact exists_resolves_of_becomes h .refl hs
    · rintro ⟨r, hu, hv⟩
      obtain ⟨fuel, hfuel⟩ := exists_unify?_of_resolves hu hv
      exact ⟨fuel, [], s, hfuel, rfl⟩
  · intro fuel events s₁ s₂ h hlater hs₂
    obtain ⟨r, hu, hv⟩ := exists_resolves_of_becomes h hlater hs₂
    refine ⟨fun σ => (Subst.alike?_iff hs₂ σ).2 ⟨r, hu, hv⟩, ?_⟩
    obtain ⟨fuel', hfuel'⟩ := exists_unify?_of_resolves hu hv
    refine ⟨fuel', fun past => ?_⟩
    show Equation.search fuel' ⟨u, v⟩ s₂ past = _
    rw [Equation.search, hfuel']
    rfl

/-- The substitution after `x` was unified with `(true . y)`, and `y` with `false`. -/
private def settled : Subst :=
  ⟨[(⟨1, "y"⟩, .atom 2 (.bool false)), (⟨0, "x"⟩, .pair 1 (.atom 0 (.bool true)) (.var ⟨1, "y"⟩))], 2⟩

/-- The equation of `x` and `(true . y)` gives nothing new then, and `x` resolves to the tree of `(true . false)`. -/
theorem unify?_settled_pair :
    settled.Acyclic ∧
      (∃ fuel, ∀ past, (Goal.prim ⟨.var ⟨0, "x"⟩, .pair 1 (.atom 0 (.bool true)) (.var ⟨1, "y"⟩)⟩).solutions fuel
        settled past = some ([settled], past)) ∧
      ∃ σ', settled.alike? (.var ⟨0, "x"⟩) (.pair 4 (.atom 3 (.bool true)) (.atom 5 (.bool false))) {} =
        some (true, σ') := by
  have hs : settled.Acyclic := by
    have hx := Subst.acyclic_empty.extend_of_unbound (x := ⟨0, "x"⟩)
      (t := .pair 1 (.atom 0 (.bool true)) (.var ⟨1, "y"⟩)) rfl (by simp [Term.vars])
    exact hx.extend_of_unbound rfl (by simp [Term.vars])
  have hfirst : unify? 1 (.var ⟨0, "x"⟩) (.pair 1 (.atom 0 (.bool true)) (.var ⟨1, "y"⟩)) .empty =
      some ⟨_, some _⟩ := rfl
  have hsecond : unify? 1 (.var ⟨1, "y"⟩) (.atom 2 (.bool false))
      ⟨[(⟨0, "x"⟩, .pair 1 (.atom 0 (.bool true)) (.var ⟨1, "y"⟩))], 1⟩ = some ⟨_, some settled⟩ := rfl
  have hlater := Relation.ReflTransGen.single (Subst.Becomes.unified hsecond)
  refine ⟨hs, ((unify?_settled _ _ _).2 _ _ _ _ hfirst hlater hs).2, ?_⟩
  exact ((unify?_settled _ _ _).1 hs {}).1 ⟨4, _, _, rfl, rfl⟩

end RelLogic
