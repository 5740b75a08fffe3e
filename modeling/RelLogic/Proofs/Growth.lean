import RelLogic.Proofs.Region
import RelLogic.Proofs.Repetition

/-!
# Answers extend the substitution they come from

What unification and goals make of a substitution has its bindings, unmoved, behind new bindings of variables that had
none (`Subst.NewTo`).  So no later binding hides an earlier one.  Whatever satisfies the later substitution satisfies
the earlier one, and so a term and what it resolves to in the earlier substitution resolve to one tree in the later
one, if that is acyclic (`Subst.eq_of_resolves_extendAll`): an answer only goes on where the substitution was left
open.
-/

namespace RelLogic

namespace Subst

/-- The bindings are of variables that have no binding in the substitution, and no two of them are of one variable. -/
structure NewTo (s : Subst) (new : List (Var × Term)) : Prop where
  unbound : ∀ b ∈ new, s.get? b.1 = none
  nodup : (new.map Prod.fst).Nodup

variable {s : Subst} {new : List (Var × Term)}

theorem bound_extendAll (s : Subst) (new : List (Var × Term)) :
    (s.extendAll new).bound = new.map Prod.fst ++ s.bound := by
  simp [bound, extendAll]

theorem newTo_nil (s : Subst) : s.NewTo [] :=
  ⟨nofun, List.nodup_nil⟩

/-- A variable that has no binding yet is new, and it is not among the new ones. -/
theorem NewTo.cons (h : s.NewTo new) {x : Var} (hx : (s.extendAll new).get? x = none) (t : Term) :
    s.NewTo ((x, t) :: new) := by
  rw [get?_eq_none_iff, bound_extendAll, List.mem_append, not_or] at hx
  obtain ⟨hnew, hold⟩ := hx
  constructor
  · exact List.forall_mem_cons.2 ⟨get?_eq_none_iff.2 hold, h.unbound⟩
  · rw [List.map_cons, List.nodup_cons]
    exact ⟨hnew, h.nodup⟩

/-- No binding is hidden by the new ones. -/
theorem NewTo.get?_extendAll (h : s.NewTo new) {x : Var} {t : Term} (hx : s.get? x = some t) :
    (s.extendAll new).get? x = some t := by
  have hnew : new.lookup x = none := by
    rw [List.lookup_eq_none_iff]
    intro b hb
    have hne : x ≠ b.1 := by
      rintro rfl
      rw [h.unbound b hb] at hx
      contradiction
    simpa using hne
  rw [get?, extendAll, List.lookup_append, hnew, Option.none_or]
  exact hx

theorem NewTo.nodup_bound (h : s.NewTo new) (hs : s.bound.Nodup) : (s.extendAll new).bound.Nodup := by
  rw [bound_extendAll, List.nodup_append]
  refine ⟨h.nodup, hs, ?_⟩
  rintro x hx y hy rfl
  obtain ⟨b, hb, rfl⟩ := List.mem_map.1 hx
  exact get?_eq_none_iff.1 (h.unbound b hb) hy

/-- Every unification and every goal puts new bindings before those that there are. -/
theorem keptByUnify_newTo (s : Subst) : KeptByUnify fun r => ∃ new, r = s.extendAll new ∧ s.NewTo new := by
  apply keptByUnify_of_canBind
  rintro _ x t hbind ⟨new, rfl, hnew⟩
  exact ⟨(x, t) :: new, rfl, hnew.cons hbind.unbound t⟩

/-! ### Resolving before and after -/

theorem NewTo.acyclic (h : s.NewTo new) (hr : (s.extendAll new).Acyclic) : s.Acyclic := by
  constructor
  · have hnodup := hr.nodup
    rw [bound_extendAll] at hnodup
    exact (List.nodup_append.1 hnodup).2.1
  · intro x hxx
    refine hr.noLoop x (Relation.TransGen.mono ?_ _ _ hxx)
    rintro y z ⟨t, ht, hz⟩
    exact ⟨t, h.get?_extendAll ht, hz⟩

/-- A term and what it resolved to before resolve to one tree. -/
theorem eq_of_resolves_extendAll (hr : (s.extendAll new).Acyclic) {t t' r r' : Term} (ht : s.Resolves t t'.bare)
    (hterm : (s.extendAll new).Resolves t r) (hresolved : (s.extendAll new).Resolves t' r') : r' = r := by
  obtain ⟨ρ, hρ, hvalue⟩ := hr.exists_resolution
  have hs : Term.model.SatisfiesAll ρ s := fun b hb => hρ b (List.mem_append_right _ hb)
  calc r'
    _ = Term.model.eval ρ t' := (hvalue hresolved).symm
    _ = Term.model.eval ρ t'.bare := (Model.eval_bare _ ρ t').symm
    _ = Term.model.eval ρ t := ht.eval_eq hs.satisfies
    _ = r := hvalue hterm

end Subst

/-! ### Main statement -/

/-- Every result of a search is the substitution at its beginning with new bindings before its own.  The new bindings
are of variables that had none, and every variable that had a binding keeps it.  If the result has no cycle, it makes
no difference to resolving a term there that it was resolved at the beginning. -/
theorem search_extends {s : Subst} (hs : s.bound.Nodup) {history : History} {fuel : Nat} {g : Goal Literal}
    {st st' : Progress} {past past' : List Event} {results : List Subst}
    (h : g.search (Literal.search history fuel) s st past = some ((results, st'), past')) :
    ∀ r ∈ results,
      (∃ new, r.bindings = new ++ s.bindings ∧ ∀ b ∈ new, s.get? b.1 = none) ∧
      (∀ x t, s.get? x = some t → r.get? x = some t) ∧
      ((∀ x, ¬Relation.TransGen r.Refers x x) → ∀ t σ, ∃ t' σ', s.resolve? t σ = some (t', σ') ∧
        ∀ τ τ', ∃ a b ρ ρ', r.resolve? t' τ = some (a, ρ) ∧ r.resolve? t τ' = some (b, ρ') ∧ a.same b = true) := by
  intro r hr
  have hstart : ∃ new, s = s.extendAll new ∧ s.NewTo new := ⟨[], rfl, s.newTo_nil⟩
  obtain ⟨new, rfl, hnew⟩ := g.search_keeps s.keptByUnify_newTo history fuel s hstart st past results st' past' h r hr
  refine ⟨⟨new, rfl, hnew.unbound⟩, fun x t hx => hnew.get?_extendAll hx, fun hloop t σ => ?_⟩
  have hacyclic : (s.extendAll new).Acyclic := ⟨hnew.nodup_bound hs, hloop⟩
  obtain ⟨t', σ', ht'⟩ := Subst.exists_resolve? (hnew.acyclic hacyclic) t σ
  refine ⟨t', σ', ht', fun τ τ' => ?_⟩
  obtain ⟨a, ρ, ha⟩ := Subst.exists_resolve? hacyclic t' τ
  obtain ⟨b, ρ', hb⟩ := Subst.exists_resolve? hacyclic t τ'
  have hsame : a.bare = b.bare :=
    Subst.eq_of_resolves_extendAll hacyclic (Subst.resolves_of_resolve? ht') (Subst.resolves_of_resolve? hb)
      (Subst.resolves_of_resolve? ha)
  exact ⟨a, b, ρ, ρ', ha, hb, Term.same_iff.2 hsame⟩

/-- The substitution in which `x` is bound to `y`. -/
private def chained : Subst :=
  ⟨[(⟨0, "x"⟩, .var ⟨1, "y"⟩)], 1⟩

/-- The goal that `x` is `true` or `false`. -/
private def choice : Goal Literal :=
  .disj (.prim (.eq ⟨.var ⟨0, "x"⟩, .atom 0 (.bool true)⟩)) (.prim (.eq ⟨.var ⟨0, "x"⟩, .atom 1 (.bool false)⟩))

/-- The goal binds `y` in both its results, and leaves `x` bound to `y`. -/
theorem search_extends_choice :
    chained.bound.Nodup ∧
      (∃ st' past', choice.search (Literal.search ⟨[], #[]⟩ 1) chained ⟨{}, none⟩ [] =
        some (([chained.extend ⟨1, "y"⟩ (.atom 0 (.bool true)), chained.extend ⟨1, "y"⟩ (.atom 1 (.bool false))], st'),
          past')) ∧
      ∃ t' σ', chained.resolve? (.var ⟨0, "x"⟩) {} = some (t', σ') ∧
        ∀ τ τ', ∃ a b ρ ρ', (chained.extend ⟨1, "y"⟩ (.atom 0 (.bool true))).resolve? t' τ = some (a, ρ) ∧
          (chained.extend ⟨1, "y"⟩ (.atom 0 (.bool true))).resolve? (.var ⟨0, "x"⟩) τ' = some (b, ρ') ∧
          a.same b = true := by
  have hs : chained.bound.Nodup := by simp [chained, Subst.bound]
  have hr : (chained.extend ⟨1, "y"⟩ (.atom 0 (.bool true))).Acyclic := by
    have hx := Subst.acyclic_empty.extend_of_unbound (x := ⟨0, "x"⟩) (t := .var ⟨1, "y"⟩) rfl (by simp [Term.vars])
    exact hx.extend_of_unbound rfl (by simp [Term.vars])
  refine ⟨hs, ⟨_, _, rfl⟩, ?_⟩
  have hgoal : choice.search (Literal.search ⟨[], #[]⟩ 1) chained ⟨{}, none⟩ [] =
      some (([chained.extend ⟨1, "y"⟩ (.atom 0 (.bool true)), _], _), _) := rfl
  exact (search_extends hs hgoal _ (List.mem_cons_self ..)).2.2 hr.noLoop (.var ⟨0, "x"⟩) {}

end RelLogic
