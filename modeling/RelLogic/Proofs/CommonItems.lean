import Mathlib.Data.List.ProdSigma
import RelLogic.Proofs.Sharing
import RelLogic.Proofs.Termination

/-!
# Items of two lists

The goal that a variable is an item of two lists takes a detour: it binds the variable to an item of the first list,
and then unifies the variable with an item of the second.  If the variable is new, this is the same as unifying the
two items.  The second unification walks the variable to where the first item is walked, and from there on it stays
over the other variables, under a substitution that agrees with the one before on these
(`Subst.Avoids.exists_of_solves_extend`).  So the goal has one result for each pair of items that can be unified, with
the bindings that unify them (`search_common_eq_pairs`).

One thing is left of the detour: the items of the first list are walked also if there is nothing in the second to
unify them with (`Goal.ends_inBoth_iff`), and round a ring of variables a walk has no end.
-/

namespace RelLogic

/-! ### Lists -/

section

variable {α β : Type} {l : List α}

theorem exists_mem_of_forall₂_left {R : α → β → Prop} {l' : List β} (h : List.Forall₂ R l l') :
    ∀ x ∈ l, ∃ y ∈ l', R x y := by
  induction h with
  | nil => exact nofun
  | @cons x y l l' hxy _ ih =>
    refine List.forall_mem_cons.2 ⟨⟨y, List.mem_cons_self .., hxy⟩, ?_⟩
    intro z hz
    obtain ⟨w, hw, hzw⟩ := ih z hz
    exact ⟨w, List.mem_cons_of_mem _ hw, hzw⟩

theorem exists_mem_of_forall₂_right {R : α → β → Prop} {l' : List β} (h : List.Forall₂ R l l') :
    ∀ y ∈ l', ∃ x ∈ l, R x y :=
  exists_mem_of_forall₂_left (R := flip R) h.flip

/-- Finitely many conditions that hold with enough moves hold together with enough moves. -/
theorem exists_fuel_forall {P : α → Nat → Prop} (hmono : ∀ {x n m}, n ≤ m → P x n → P x m)
    (h : ∀ x ∈ l, ∃ n, P x n) : ∃ n, ∀ x ∈ l, P x n := by
  induction l with
  | nil => exact ⟨0, nofun⟩
  | cons x l ih =>
    obtain ⟨⟨n, hn⟩, hl⟩ := List.forall_mem_cons.1 h
    obtain ⟨m, hm⟩ := ih hl
    refine ⟨max n m, List.forall_mem_cons.2 ⟨hmono (Nat.le_max_left n m) hn, ?_⟩⟩
    intro y hy
    exact hmono (Nat.le_max_right n m) (hm y hy)

theorem reduceOption_map_ite (l : List α) (c : α → Bool) (f : α → β) :
    (l.map fun x => if c x then some (f x) else none).reduceOption = (l.filter c).map f := by
  induction l with
  | nil => rfl
  | cons x l ih =>
    rw [List.map_cons]
    by_cases hx : c x = true
    · rw [if_pos hx, List.reduceOption_cons_of_some, List.filter_cons_of_pos hx, List.map_cons, ih]
    · rw [if_neg hx, List.reduceOption_cons_of_none, List.filter_cons_of_neg hx, ih]

end

/-! ### New variables -/

/-- The variable has no binding and occurs in none. -/
structure Subst.Avoids (s : Subst) (v : Var) : Prop where
  unbound : s.get? v = none
  unused : ∀ b ∈ s.bindings, v ∉ b.2.vars

variable {s : Subst} {v : Var} {a b w : Term} {o : Outcome}

theorem Term.over_of_not_mem (h : v ∉ a.vars) : a.Over {x | x ≠ v} := by
  rintro x hx rfl
  exact h hx

theorem Term.vars_subset_of_items? {l : Term} {items : List Term} (h : l.items? = .ok items) (ha : a ∈ items) :
    a.vars ⊆ l.vars := by
  induction items generalizing l with
  | nil => contradiction
  | cons first items ih =>
    obtain ⟨i, d, rfl, hd⟩ := items?_eq_cons_iff.1 h
    rw [vars]
    rcases List.mem_cons.1 ha with rfl | ha
    · exact List.subset_append_left _ _
    · exact List.subset_append_of_subset_right _ (ih hd ha)

namespace Subst.Avoids

theorem agreeOn (hs : s.Avoids v) (w : Term) : s.AgreeOn {x | x ≠ v} (s.extend v w) := by
  constructor
  · intro x _ t hx
    exact Term.over_of_not_mem (hs.unused (x, t) (mem_bindings_of_get? hx))
  · intro x hx
    rw [get?_extend, if_neg hx]

theorem walked_ne (hs : s.Avoids v) (ha : v ∉ a.vars) (hw : s.walk? a = some w) : w ≠ .var v := by
  rintro rfl
  have hover := (hs.agreeOn .nil).closed.walk? (Term.over_of_not_mem ha) hw
  exact Term.over_var.1 hover rfl

/-- Once the variable is bound to where a term walks, it walks as that term does. -/
theorem walk?_extend (hs : s.Avoids v) (ha : v ∉ a.vars) (hw : s.walk? a = some w) :
    (s.extend v w).walk? (.var v) = (s.extend v w).walk? a := by
  have hne := hs.walked_ne ha hw
  rw [walk?_extend_of_ne hs.unbound hw hne,
    walk?_extend_of_eq hs.unbound (walk?_of_get?_eq_none hs.unbound) (walk?_of_walk? hw) hne]

/-! ### Unifying with a new variable -/

/-- At first, unifying with the variable binds it to where the other term walks. -/
theorem solves_first_iff (hs : s.Avoids v) (ha : v ∉ a.vars) :
    Solves s [⟨.var v, a⟩] o ↔ ∃ w, s.walk? a = some w ∧ o = ⟨[.extended v w], some (s.extend v w)⟩ := by
  have hrun : ∀ {w}, s.walk? a = some w → Solves s [⟨.var v, a⟩] ⟨[.extended v w], some (s.extend v w)⟩ := by
    intro w hw
    have hm : Move.of (.var v) w = .bind v w := if_neg (hs.walked_ne ha hw).symm
    exact .bind (walk?_of_get?_eq_none hs.unbound) hw hm (.done _)
  constructor
  · intro h
    obtain ⟨w, hw⟩ : ∃ w, s.walk? a = some w := by
      cases h <;> exact ⟨_, ‹_›⟩
    exact ⟨w, hw, h.unique (hrun hw)⟩
  · rintro ⟨w, hw, rfl⟩
    exact hrun hw

theorem solves_extend_iff (hs : s.Avoids v) (ha : v ∉ a.vars) (hw : s.walk? a = some w) :
    Solves (s.extend v w) [⟨.var v, b⟩] o ↔ Solves (s.extend v w) [⟨a, b⟩] o := by
  have hwalk := hs.walk?_extend ha hw
  constructor
  · exact solves_cons_congr hwalk rfl
  · exact solves_cons_congr hwalk.symm rfl

/-- Afterwards, unifying with the variable is unifying with the term to whose end it was bound. -/
theorem exists_of_solves_extend (hs : s.Avoids v) (ha : v ∉ a.vars) (hb : v ∉ b.vars) (hw : s.walk? a = some w)
    (h : Solves (s.extend v w) [⟨.var v, b⟩] o) :
    ∃ new? : Option (List (Var × Term)),
      o.store? = new?.map (s.extend v w).extendAll ∧ Solves s [⟨a, b⟩] ⟨o.events, new?.map s.extendAll⟩ := by
  rw [hs.solves_extend_iff ha hw] at h
  refine h.exists_of_agreeOn (hs.agreeOn w).symm (List.forall_mem_singleton.2 ?_)
  exact ⟨Term.over_of_not_mem ha, Term.over_of_not_mem hb⟩

theorem exists_solves_extend (hs : s.Avoids v) (ha : v ∉ a.vars) (hb : v ∉ b.vars) (hw : s.walk? a = some w)
    (h : Solves s [⟨a, b⟩] o) : ∃ o', Solves (s.extend v w) [⟨.var v, b⟩] o' := by
  obtain ⟨new?, -, hrun⟩ := h.exists_of_agreeOn (hs.agreeOn w) (List.forall_mem_singleton.2
    ⟨Term.over_of_not_mem ha, Term.over_of_not_mem hb⟩)
  exact ⟨_, (hs.solves_extend_iff ha hw).2 hrun⟩

end Subst.Avoids

/-! ### Pairs of items -/

/-- What a pair of items gives: the variable bound to where the first item walks, and then the bindings that unify the
items, or nothing if the items are not unified. -/
inductive Subst.PairGives (s : Subst) (v : Var) : Term × Term → Option Subst → Prop
  | met {a b w : Term} {new : List (Var × Term)} {fuel : Nat} {events : List Event} (hw : s.walk? a = some w)
      (h : unify? fuel a b s = some ⟨events, some (s.extendAll new)⟩) :
      PairGives s v (a, b) (some ((s.extend v w).extendAll new))
  | clash {a b : Term} {fuel : Nat} {events : List Event} (h : unify? fuel a b s = some ⟨events, none⟩) :
      PairGives s v (a, b) none

namespace Subst

theorem PairGives.exists_unify? {r : Option Subst} (h : s.PairGives v (a, b) r) :
    ∃ fuel o, unify? fuel a b s = some o := by
  cases h with
  | met _ h => exact ⟨_, _, h⟩
  | clash h => exact ⟨_, _, h⟩

theorem extendAll_inj {new new' : List (Var × Term)} (h : s.extendAll new = s.extendAll new') : new = new' :=
  List.append_cancel_right (congrArg bindings h)

theorem rightUnique_pairGives (s : Subst) (v : Var) : Relator.RightUnique (s.PairGives v) := by
  have hstore : ∀ {a b n m o o'}, unify? n a b s = some o → unify? m a b s = some o' → o.store? = o'.store? := by
    intro a b n m o o' h h'
    rw [(solves_of_solve? h).unique (solves_of_solve? h')]
  intro p r r' hr hr'
  cases hr with
  | met hw h =>
    cases hr' with
    | met hw' h' =>
      obtain rfl := Option.some.inj (hw.symm.trans hw')
      rw [extendAll_inj (Option.some.inj (hstore h h'))]
    | clash h' => cases hstore h h'
  | clash h =>
    cases hr' with
    | met _ h' => cases hstore h h'
    | clash _ => rfl

theorem pairGives_of_ground (s : Subst) (v : Var) (ha : a.vars = []) (hb : b.vars = []) :
    s.PairGives v (a, b) (if a.same b then some (s.extend v a) else none) := by
  obtain ⟨events, hrun⟩ := exists_solves_of_ground s ha hb
  obtain ⟨fuel, hfuel⟩ := hrun.exists_solve?
  by_cases hsame : a.same b = true
  · rw [if_pos hsame] at hfuel ⊢
    have hnone : unify? fuel a b s = some ⟨events, some (s.extendAll [])⟩ := hfuel
    exact .met (s.walk?_of_vars_eq_nil ha) hnone
  · rw [if_neg hsame] at hfuel ⊢
    exact .clash hfuel

end Subst

variable {fuel : Nat} {last? : Option Subst}

theorem follow?_first (hs : s.Avoids v) (ha : v ∉ a.vars) {es : List Equation}
    (h : follow? fuel (⟨.var v, a⟩ :: es) s = some last?) :
    ∃ w, s.walk? a = some w ∧ follow? fuel es (s.extend v w) = some last? := by
  obtain ⟨o, ho, hrest⟩ := exists_unify?_of_follow? h
  obtain ⟨w, hw, rfl⟩ := (hs.solves_first_iff ha).1 (solves_of_solve? ho)
  obtain ⟨hnone, -⟩ | ⟨s', hs', hrest⟩ := hrest
  · contradiction
  · obtain rfl := Option.some.inj hs'
    exact ⟨w, hw, hrest⟩

theorem pairGives_of_follow? (hs : s.Avoids v) (ha : v ∉ a.vars) (hb : v ∉ b.vars)
    (h : follow? fuel [⟨.var v, a⟩, ⟨.var v, b⟩] s = some last?) : s.PairGives v (a, b) last? := by
  obtain ⟨w, hw, hsecond⟩ := follow?_first hs ha h
  obtain ⟨o, ho, hend⟩ := exists_unify?_of_follow? hsecond
  have hlast : last? = o.store? := by
    obtain ⟨hnone, rfl⟩ | ⟨r, hr, hdone⟩ := hend
    · exact hnone.symm
    · rw [hr]
      exact (Option.some.inj hdone).symm
  obtain ⟨new?, hstore, hitems⟩ := hs.exists_of_solves_extend ha hb hw (solves_of_solve? ho)
  obtain ⟨fuel', hfuel'⟩ := hitems.exists_solve?
  rw [hlast, hstore]
  cases new? with
  | none => exact .clash hfuel'
  | some new => exact .met hw hfuel'

/-! ### Searching -/

theorem Equation.search_ends {e : Equation} (h : ∃ o, unify? fuel e.lhs e.rhs s = some o) :
    (e.search fuel s).Ends := by
  obtain ⟨o, ho⟩ := h
  exact fun past => ⟨_, search_eq_some_iff.2 ⟨o, ho, rfl, rfl⟩⟩

namespace Goal

/-- The goal that a term equals one of the items. -/
def anyOf (t : Term) (items : List Term) : Goal Equation :=
  .disjAll (items.map fun item => .prim ⟨t, item⟩)

/-- The goal that a variable equals one of the first items and one of the second. -/
def inBoth (v : Var) (items₁ items₂ : List Term) : Goal Equation :=
  .conj (anyOf (.var v) items₁) (anyOf (.var v) items₂)

variable {items items₁ items₂ : List Term} {past past' : List Event} {results : List Subst}

theorem common_eq {l₁ l₂ : Term} (h₁ : l₁.items? = .ok items₁) (h₂ : l₂.items? = .ok items₂) :
    common v l₁ l₂ = .ok (inBoth v items₁ items₂) := by
  rw [common, member, member, h₁, h₂]
  rfl

theorem branches_anyOf (t : Term) (items : List Term) :
    (anyOf t items).branches Equation.branches = items.map fun a => [⟨t, a⟩] := by
  induction items with
  | nil => rfl
  | cons a items ih => simpa [anyOf, branches, branchLists, Equation.branches] using ih

theorem branches_inBoth (v : Var) (items₁ items₂ : List Term) :
    (inBoth v items₁ items₂).branches Equation.branches =
      (items₁ ×ˢ items₂).map fun p => [⟨.var v, p.1⟩, ⟨.var v, p.2⟩] := by
  rw [inBoth, branches, branches_anyOf, branches_anyOf]
  simp only [joined, SProd.sprod, List.product, List.flatMap_map, List.map_flatMap, List.map_map,
    Function.comp_def, List.cons_append, List.nil_append]

theorem anyOf_ends {t : Term} (h : ∀ a ∈ items, ∃ o, unify? fuel t a s = some o) :
    ((anyOf t items).solutions fuel s).Ends := by
  show (Search.disjAll (searches (Equation.search fuel) (items.map fun a => .prim ⟨t, a⟩)) s : Traced _).Ends
  rw [searches_eq_map, List.map_map]
  apply Traced.ends_disjAll
  intro g hg
  obtain ⟨a, ha, rfl⟩ := List.mem_map.1 hg
  exact Equation.search_ends (h a ha)

theorem exists_unify?_of_pairs {found : List (Option Subst)}
    (hfound : List.Forall₂ (s.PairGives v) (items₁ ×ˢ items₂) found) :
    ∀ a ∈ items₁, ∀ b ∈ items₂, ∃ fuel o, unify? fuel a b s = some o := by
  intro a ha b hb
  obtain ⟨r, -, hr⟩ := exists_mem_of_forall₂_left hfound (a, b) (List.mem_product.2 ⟨ha, hb⟩)
  exact hr.exists_unify?

variable (hs : s.Avoids v) (h₁ : ∀ a ∈ items₁, v ∉ a.vars) (h₂ : ∀ b ∈ items₂, v ∉ b.vars)

include hs h₁

/-- The search among the items of the first list binds the variable to where each of them walks. -/
theorem forall₂_first (h : (anyOf (.var v) items₁).solutions fuel s past = some (results, past')) :
    List.Forall₂ (fun a r => ∃ w, s.walk? a = some w ∧ r = s.extend v w) items₁ results := by
  have hanswers := search_refines_answers? _ s past results past' h
  rw [branches_anyOf] at hanswers
  clear h
  induction items₁ generalizing results with
  | nil =>
    obtain rfl : [] = results := Option.some.inj hanswers
    exact .nil
  | cons a items ih =>
    obtain ⟨ha, hitems⟩ := List.forall_mem_cons.1 h₁
    simp only [List.map_cons, answers?, bind, Option.bind_eq_some_iff, pure, Option.some.injEq] at hanswers
    obtain ⟨last?, hlast, others, hothers, rfl⟩ := hanswers
    obtain ⟨w, hw, hdone⟩ := follow?_first hs ha hlast
    obtain rfl := Option.some.inj hdone
    exact .cons ⟨w, hw, rfl⟩ (ih hitems hothers)

theorem exists_walk?_of_solutions (h : (inBoth v items₁ items₂).solutions fuel s past = some (results, past')) :
    ∀ a ∈ items₁, ∃ w, s.walk? a = some w := by
  intro a ha
  -- the first search has come to an end, even if it left the second one nothing to do
  obtain ⟨⟨states, mid⟩, hstates, -⟩ := Option.bind_eq_some_iff.1 h
  obtain ⟨r, -, w, hw, -⟩ := exists_mem_of_forall₂_left (forall₂_first hs h₁ hstates) a ha
  exact ⟨w, hw⟩

include h₂

theorem exists_pairGives (h : (inBoth v items₁ items₂).solutions fuel s past = some (results, past')) :
    ∃ found, List.Forall₂ (s.PairGives v) (items₁ ×ˢ items₂) found ∧ results = found.reduceOption := by
  have hanswers := search_refines_answers? _ s past results past' h
  rw [branches_inBoth] at hanswers
  obtain ⟨found, hfound, rfl⟩ := exists_follow?_of_answers? hanswers
  rw [List.forall₂_map_left_iff] at hfound
  have havoid : ∀ p ∈ items₁ ×ˢ items₂, v ∉ p.1.vars ∧ v ∉ p.2.vars := by
    rintro ⟨a, b⟩ hp
    obtain ⟨ha, hb⟩ := List.mem_product.1 hp
    exact ⟨h₁ a ha, h₂ b hb⟩
  refine ⟨found, ?_, rfl⟩
  refine ((List.forall₂_and_left _ _).2 ⟨havoid, hfound⟩).imp ?_
  rintro ⟨a, b⟩ last? ⟨⟨ha, hb⟩, hfollow⟩
  exact pairGives_of_follow? hs ha hb hfollow

/-- The search ends if the first items can be walked and all pairs of items can be compared. -/
theorem exists_ends (hwalk : ∀ a ∈ items₁, ∃ w, s.walk? a = some w)
    (hunify : ∀ a ∈ items₁, ∀ b ∈ items₂, ∃ fuel o, unify? fuel a b s = some o) :
    ∃ fuel, ((inBoth v items₁ items₂).solutions fuel s).Ends := by
  have hmore : ∀ {n m : Nat} {u t : Term} {r : Subst}, n ≤ m → (∃ o, unify? n u t r = some o) →
      ∃ o, unify? m u t r = some o := by
    rintro n m u t r hnm ⟨o, ho⟩
    exact ⟨o, solve?_mono hnm ho⟩
  have hfirst : ∀ a ∈ items₁, ∃ n o, unify? n (.var v) a s = some o := by
    intro a ha
    obtain ⟨w, hw⟩ := hwalk a ha
    obtain ⟨n, hn⟩ := ((hs.solves_first_iff (h₁ a ha)).2 ⟨w, hw, rfl⟩).exists_solve?
    exact ⟨n, _, hn⟩
  have hsecond : ∀ p ∈ items₁ ×ˢ items₂, ∃ n, ∀ w, s.walk? p.1 = some w →
      ∃ o, unify? n (.var v) p.2 (s.extend v w) = some o := by
    rintro ⟨a, b⟩ hp
    obtain ⟨ha, hb⟩ := List.mem_product.1 hp
    obtain ⟨w, hw⟩ := hwalk a ha
    obtain ⟨fuel, o, ho⟩ := hunify a ha b hb
    obtain ⟨o', ho'⟩ := hs.exists_solves_extend (h₁ a ha) (h₂ b hb) hw (solves_of_solve? ho)
    obtain ⟨n, hn⟩ := ho'.exists_solve?
    refine ⟨n, fun w' hw' => ?_⟩
    obtain rfl := Option.some.inj (hw.symm.trans hw')
    exact ⟨o', hn⟩
  obtain ⟨n, hn⟩ := exists_fuel_forall (P := fun a n => ∃ o, unify? n (.var v) a s = some o) hmore hfirst
  obtain ⟨m, hm⟩ := exists_fuel_forall (fun hnm h w hw => hmore hnm (h w hw)) hsecond
  refine ⟨max n m, ?_⟩
  refine (anyOf_ends fun a ha => hmore (Nat.le_max_left n m) (hn a ha)).bind ?_
  intro past states past' hstates
  apply Traced.ends_each
  intro r hr
  obtain ⟨a, ha, w, hw, rfl⟩ := exists_mem_of_forall₂_right (forall₂_first hs h₁ hstates) r hr
  exact anyOf_ends fun b hb => hmore (Nat.le_max_right n m) (hm (a, b) (List.mem_product.2 ⟨ha, hb⟩) w hw)

/-- A search has results if and only if the first items can be walked and all pairs of items give something, and its
results are what they give. -/
theorem solutions_inBoth_iff :
    (∃ fuel past', (inBoth v items₁ items₂).solutions fuel s past = some (results, past')) ↔
      (∀ a ∈ items₁, ∃ w, s.walk? a = some w) ∧
        ∃ found, List.Forall₂ (s.PairGives v) (items₁ ×ˢ items₂) found ∧ results = found.reduceOption := by
  constructor
  · rintro ⟨fuel, past', h⟩
    exact ⟨exists_walk?_of_solutions hs h₁ h, exists_pairGives hs h₁ h₂ h⟩
  · rintro ⟨hwalk, found, hfound, rfl⟩
    obtain ⟨fuel, hends⟩ := exists_ends hs h₁ h₂ hwalk (exists_unify?_of_pairs hfound)
    obtain ⟨⟨results, past'⟩, h⟩ := hends past
    obtain ⟨found', hfound', rfl⟩ := exists_pairGives hs h₁ h₂ h
    obtain rfl := (s.rightUnique_pairGives v).forall₂ hfound hfound'
    exact ⟨fuel, past', h⟩

/-- The first items are walked also where there is nothing to compare them with; otherwise comparing them walks them
too. -/
theorem ends_inBoth_iff :
    (∃ fuel results past', (inBoth v items₁ items₂).solutions fuel s past = some (results, past')) ↔
      (items₂ = [] → ∀ a ∈ items₁, ∃ w, s.walk? a = some w) ∧
        ∀ a ∈ items₁, ∀ b ∈ items₂, ∃ fuel o, unify? fuel a b s = some o := by
  constructor
  · rintro ⟨fuel, results, past', h⟩
    obtain ⟨found, hfound, -⟩ := exists_pairGives hs h₁ h₂ h
    exact ⟨fun _ => exists_walk?_of_solutions hs h₁ h, exists_unify?_of_pairs hfound⟩
  · rintro ⟨hempty, hunify⟩
    have hwalk : ∀ a ∈ items₁, ∃ w, s.walk? a = some w := by
      cases items₂ with
      | nil => exact hempty rfl
      | cons b items =>
        intro a ha
        obtain ⟨fuel, o, ho⟩ := hunify a ha b (List.mem_cons_self ..)
        cases solves_of_solve? ho <;> exact ⟨_, ‹_›⟩
    obtain ⟨fuel, hends⟩ := exists_ends hs h₁ h₂ hwalk hunify
    obtain ⟨⟨results, past'⟩, h⟩ := hends past
    exact ⟨fuel, results, past', h⟩

/-- Items without variables are unified if they have one structure, and then nothing but the variable is bound. -/
theorem exists_solutions_of_ground (hg₁ : ∀ a ∈ items₁, a.vars = []) (hg₂ : ∀ b ∈ items₂, b.vars = []) :
    ∃ fuel past', (inBoth v items₁ items₂).solutions fuel s past =
      some (((items₁ ×ˢ items₂).filter fun p => p.1.same p.2).map fun p => s.extend v p.1, past') := by
  rw [solutions_inBoth_iff hs h₁ h₂]
  refine ⟨fun a ha => ⟨a, s.walk?_of_vars_eq_nil (hg₁ a ha)⟩, _, ?_, (reduceOption_map_ite _ _ _).symm⟩
  rw [List.forall₂_map_right_iff, List.forall₂_same]
  rintro ⟨a, b⟩ hp
  obtain ⟨ha, hb⟩ := List.mem_product.1 hp
  exact s.pairGives_of_ground v (hg₁ a ha) (hg₂ b hb)

end Goal

/-! ### Main statement -/

/-- A search for a new variable among the items of two lists ends if and only if the items can all be compared and, if
the second list is empty, those of the first can be walked.  It finds, for each item of the first list and with it each
item of the second, the variable bound to where the first item walks, and then the very bindings that unify the two
items, if they can be unified.  Where the items have no variables, these are the pairs of items of one structure. -/
theorem search_common_eq_pairs (hs : s.Avoids v) {l₁ l₂ : Term} {items₁ items₂ : List Term}
    (hl₁ : l₁.items? = .ok items₁) (hl₂ : l₂.items? = .ok items₂) (hv₁ : v ∉ l₁.vars) (hv₂ : v ∉ l₂.vars)
    (past : List Event) :
    ∃ g, Goal.common v l₁ l₂ = .ok g ∧
      ((∃ fuel results past', g.solutions fuel s past = some (results, past')) ↔
        (items₂ = [] → ∀ a ∈ items₁, ∃ w, s.walk? a = some w) ∧
          ∀ a ∈ items₁, ∀ b ∈ items₂, ∃ fuel o, unify? fuel a b s = some o) ∧
      (∀ results, (∃ fuel past', g.solutions fuel s past = some (results, past')) ↔
        (∀ a ∈ items₁, ∃ w, s.walk? a = some w) ∧
          ∃ found, List.Forall₂ (s.PairGives v) (items₁ ×ˢ items₂) found ∧ results = found.reduceOption) ∧
      ((∀ a ∈ items₁, a.vars = []) → (∀ b ∈ items₂, b.vars = []) →
        ∃ fuel past', g.solutions fuel s past =
          some (((items₁ ×ˢ items₂).filter fun p => p.1.same p.2).map fun p => s.extend v p.1, past')) := by
  have h₁ : ∀ a ∈ items₁, v ∉ a.vars := fun a ha hva => hv₁ (Term.vars_subset_of_items? hl₁ ha hva)
  have h₂ : ∀ b ∈ items₂, v ∉ b.vars := fun b hb hvb => hv₂ (Term.vars_subset_of_items? hl₂ hb hvb)
  refine ⟨Goal.inBoth v items₁ items₂, Goal.common_eq hl₁ hl₂, ?_, ?_, ?_⟩
  · exact Goal.ends_inBoth_iff hs h₁ h₂
  · exact fun results => Goal.solutions_inBoth_iff hs h₁ h₂
  · exact Goal.exists_solutions_of_ground hs h₁ h₂

/-- The substitution in which `y` is bound to `true`. -/
private def yTrue : Subst :=
  ⟨[(⟨1, "y"⟩, .atom 0 (.bool true))], 1⟩

/-- Of the items of `(x y)` and `(false z)` all are unified but `y`, which is `true`, and `false`. -/
theorem search_common_eq_pairs_open :
    yTrue.Avoids ⟨3, "v"⟩ ∧
      ∃ g, Goal.common ⟨3, "v"⟩ (.pair 2 (.var ⟨0, "x"⟩) (.pair 1 (.var ⟨1, "y"⟩) .nil))
          (.pair 5 (.atom 3 (.bool false)) (.pair 4 (.var ⟨2, "z"⟩) .nil)) = .ok g ∧
        ∃ fuel past', g.solutions fuel yTrue [] = some
          ([yTrue.extendAll [(⟨0, "x"⟩, .atom 3 (.bool false)), (⟨3, "v"⟩, .var ⟨0, "x"⟩)],
            yTrue.extendAll [(⟨0, "x"⟩, .var ⟨2, "z"⟩), (⟨3, "v"⟩, .var ⟨0, "x"⟩)],
            yTrue.extendAll [(⟨2, "z"⟩, .atom 0 (.bool true)), (⟨3, "v"⟩, .atom 0 (.bool true))]], past') := by
  have hs : yTrue.Avoids ⟨3, "v"⟩ := ⟨rfl, by simp [yTrue, Term.vars]⟩
  have hl₁ : (Term.pair 2 (.var ⟨0, "x"⟩) (.pair 1 (.var ⟨1, "y"⟩) .nil)).items? = .ok _ := rfl
  have hl₂ : (Term.pair 5 (.atom 3 (.bool false)) (.pair 4 (.var ⟨2, "z"⟩) .nil)).items? = .ok _ := rfl
  obtain ⟨g, hg, -, hresults, -⟩ := search_common_eq_pairs hs hl₁ hl₂ (by simp [Term.vars]) (by simp [Term.vars]) []
  have hmet : ∀ {a b w : Term} (x : Var) (t : Term), yTrue.walk? a = some w →
      unify? 1 a b yTrue = some ⟨[.extended x t], some (yTrue.extendAll [(x, t)])⟩ →
      yTrue.PairGives ⟨3, "v"⟩ (a, b) (some (yTrue.extendAll [(x, t), (⟨3, "v"⟩, w)])) :=
    fun _ _ hw h => .met hw h
  have hfound : List.Forall₂ (yTrue.PairGives ⟨3, "v"⟩)
      [(.var ⟨0, "x"⟩, .atom 3 (.bool false)), (.var ⟨0, "x"⟩, .var ⟨2, "z"⟩),
        (.var ⟨1, "y"⟩, .atom 3 (.bool false)), (.var ⟨1, "y"⟩, .var ⟨2, "z"⟩)]
      [some _, some _, none, some _] :=
    .cons (hmet ⟨0, "x"⟩ (.atom 3 (.bool false)) rfl rfl) <|
    .cons (hmet ⟨0, "x"⟩ (.var ⟨2, "z"⟩) rfl rfl) <|
    .cons (.clash (show unify? 1 _ _ _ = some ⟨_, none⟩ from rfl)) <|
    .cons (hmet ⟨2, "z"⟩ (.atom 0 (.bool true)) rfl rfl) .nil
  refine ⟨hs, g, hg, (hresults _).2 ⟨?_, _, hfound, rfl⟩⟩
  rintro a (_ | ⟨_, _ | ⟨_, ⟨⟩⟩⟩)
  · exact ⟨_, rfl⟩
  · exact ⟨_, rfl⟩

/-- The substitution in which `x` and `y` are bound to each other. -/
private def aliasRing : Subst :=
  (Subst.empty.extend ⟨0, "x"⟩ (.var ⟨1, "y"⟩)).extend ⟨1, "y"⟩ (.var ⟨0, "x"⟩)

/-- With `x` and `y` bound to each other, a search among the items of `(x)` and `()` walks `x` without end, although
there are no two items to compare. -/
theorem search_common_eq_pairs_ring :
    aliasRing.Avoids ⟨2, "v"⟩ ∧
      (Term.pair 0 (.var ⟨0, "x"⟩) .nil).items? = .ok [.var ⟨0, "x"⟩] ∧ Term.nil.items? = .ok [] ∧
      ⟨2, "v"⟩ ∉ (Term.pair 0 (.var ⟨0, "x"⟩) .nil).vars ∧ ⟨2, "v"⟩ ∉ Term.nil.vars ∧
      (∀ a ∈ [Term.var ⟨0, "x"⟩], ∀ b ∈ ([] : List Term), ∃ fuel o, unify? fuel a b aliasRing = some o) ∧
      ∃ g, Goal.common ⟨2, "v"⟩ (.pair 0 (.var ⟨0, "x"⟩) .nil) .nil = .ok g ∧
        ¬∃ fuel results past', g.solutions fuel aliasRing [] = some (results, past') := by
  have hs : aliasRing.Avoids ⟨2, "v"⟩ := ⟨rfl, by simp [aliasRing, Subst.extend, Subst.empty, Term.vars]⟩
  refine ⟨hs, rfl, rfl, by simp [Term.vars], by simp [Term.vars], by simp, _, Goal.common_eq rfl rfl, ?_⟩
  rintro ⟨fuel, results, past', h⟩
  obtain ⟨w, hw⟩ := Goal.exists_walk?_of_solutions hs (by simp [Term.vars]) h (.var ⟨0, "x"⟩) (List.mem_cons_self ..)
  have hnone : aliasRing.walk? (.var ⟨0, "x"⟩) = none := rfl
  rw [hnone] at hw
  contradiction

end RelLogic
