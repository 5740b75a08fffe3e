import Mathlib.Data.Finset.Card
import Mathlib.Data.Prod.Lex
import RelLogic.Proofs.Recursion
import RelLogic.Proofs.Region
import RelLogic.Proofs.Solutions

/-!
# Unification ends unless it makes a loop

A run of the unifier passes through stages (`Stage`), each with the substitution so far and the equations still to be
met.  As long as these substitutions are acyclic, the stages become smaller in a lexicographic order: a binding leaves
fewer variables without one, of the finitely many that occur at all, and any other move leaves a smaller total size of
the values of the left sides under a solution of the substitution (`Stage.Next.size_lt`).  So a run that does not end
has bound a variable to a term from which the variable can be reached (`unify?_ends_or_loops`).

Two terms without variables are never bound to anything, and whether they unify is whether they are the same tree.
-/

namespace RelLogic

/-! ### Stages -/

/-- What the unifier has at one moment: the substitution so far, and the equations that are still to be met. -/
structure Stage where
  store : Subst
  pending : List Equation

namespace Stage

/-- The unifier makes one move, which is not the last one, at the first pending equation. -/
inductive Next : Stage → Stage → Prop
  | agree {s : Subst} {e : Equation} {rest : List Equation} {u v : Term}
      (hu : s.walk? e.lhs = some u) (hv : s.walk? e.rhs = some v) (hm : Move.of u v = .agree) :
      Next ⟨s, e :: rest⟩ ⟨s, rest⟩
  | bind {s : Subst} {e : Equation} {rest : List Equation} {u v t : Term} {x : Var}
      (hu : s.walk? e.lhs = some u) (hv : s.walk? e.rhs = some v) (hm : Move.of u v = .bind x t) :
      Next ⟨s, e :: rest⟩ ⟨s.extend x t, rest⟩
  | split {s : Subst} {e cars cdrs : Equation} {rest : List Equation} {u v : Term}
      (hu : s.walk? e.lhs = some u) (hv : s.walk? e.rhs = some v) (hm : Move.of u v = .split cars cdrs) :
      Next ⟨s, e :: rest⟩ ⟨s, cars :: cdrs :: rest⟩

/-- The run from the stage on comes to an end. -/
def Ends (c : Stage) : Prop :=
  ∃ o, Solves c.store c.pending o

theorem Next.ends {c c' : Stage} (h : c.Next c') (hc' : c'.Ends) : c.Ends := by
  obtain ⟨o, ho⟩ := hc'
  cases h with
  | agree hu hv hm => exact ⟨o, .agree hu hv hm ho⟩
  | bind hu hv hm => exact ⟨_, .bind hu hv hm ho⟩
  | split hu hv hm => exact ⟨o, .split hu hv hm ho⟩

/-- Where walks come to an end, the run ends at once or goes on. -/
theorem ends_or_next {c : Stage} (hc : c.store.RingFree) : c.Ends ∨ ∃ c', c.Next c' := by
  obtain ⟨s, pending⟩ := c
  cases pending with
  | nil => exact .inl ⟨_, .done s⟩
  | cons e rest =>
    obtain ⟨u, hu⟩ := Subst.exists_walk? hc e.lhs
    obtain ⟨v, hv⟩ := Subst.exists_walk? hc e.rhs
    cases hm : Move.of u v with
    | agree => exact .inr ⟨_, .agree hu hv hm⟩
    | bind x t => exact .inr ⟨_, .bind hu hv hm⟩
    | split cars cdrs => exact .inr ⟨_, .split hu hv hm⟩
    | clash => exact .inl ⟨_, .clash hu hv hm⟩

/-! ### The size of a stage -/

/-- All that the stage can come to is over the given variables. -/
structure Within (V : Finset Var) (c : Stage) : Prop where
  store : c.store.Closed V
  pending : ∀ e ∈ c.pending, e.Over V

theorem exists_within (c : Stage) : ∃ V, c.Within V := by
  let sides := c.pending.flatMap fun e => e.lhs.vars ++ e.rhs.vars
  let referred := c.store.bindings.flatMap fun b => b.2.vars
  have hmem : ∀ x, x ∈ sides ∨ x ∈ referred → x ∈ ((sides ++ referred).toFinset : Set Var) := by
    intro x hx
    rw [Finset.mem_coe, List.mem_toFinset, List.mem_append]
    exact hx
  refine ⟨(sides ++ referred).toFinset, ?_, ?_⟩
  · intro x _ t ht y hy
    exact hmem y (.inr (List.mem_flatMap.2 ⟨(x, t), Subst.mem_bindings_of_get? ht, hy⟩))
  · intro e he
    constructor
    · intro x hx
      exact hmem x (.inl (List.mem_flatMap.2 ⟨e, he, List.mem_append_left _ hx⟩))
    · intro x hx
      exact hmem x (.inl (List.mem_flatMap.2 ⟨e, he, List.mem_append_right _ hx⟩))

theorem Next.within {V : Finset Var} {c c' : Stage} (h : c.Next c') (hc : c.Within V) : c'.Within V := by
  obtain ⟨hstore, hpending⟩ := hc
  cases h with
  | agree _ _ _ =>
    obtain ⟨-, hrest⟩ := List.forall_mem_cons.1 hpending
    exact ⟨hstore, hrest⟩
  | bind hu hv hm =>
    obtain ⟨he, hrest⟩ := List.forall_mem_cons.1 hpending
    obtain ⟨-, ht⟩ := he.bind hstore hu hv hm
    exact ⟨hstore.extend ht, hrest⟩
  | split hu hv hm =>
    obtain ⟨he, hrest⟩ := List.forall_mem_cons.1 hpending
    obtain ⟨hcars, hcdrs⟩ := he.split hstore hu hv hm
    exact ⟨hstore, List.forall_mem_cons.2 ⟨hcars, List.forall_mem_cons.2 ⟨hcdrs, hrest⟩⟩⟩

/-- How many of the variables have no binding. -/
def free (V : Finset Var) (s : Subst) : Nat :=
  (V.filter fun x => s.get? x = none).card

theorem free_extend_lt {V : Finset Var} {s : Subst} {x : Var} (hV : x ∈ V) (hx : s.get? x = none) (t : Term) :
    free V (s.extend x t) < free V s := by
  apply Finset.card_lt_card
  have hmem : x ∈ V.filter fun y => s.get? y = none := Finset.mem_filter.2 ⟨hV, hx⟩
  have hnot : x ∉ V.filter fun y => (s.extend x t).get? y = none := by
    simp [Subst.get?_extend]
  refine Finset.ssubset_iff_subset_ne.2 ⟨?_, fun h => hnot (h ▸ hmem)⟩
  intro y hy
  rw [Finset.mem_filter, Subst.get?_extend] at hy
  obtain ⟨hyV, hy⟩ := hy
  split at hy
  · contradiction
  · exact Finset.mem_filter.2 ⟨hyV, hy⟩

/-- A solution of the substitution, if it has one. -/
noncomputable def solution (s : Subst) : Var → Tree :=
  @Classical.epsilon (Var → Tree) ⟨fun _ => .nil⟩ fun ρ => ρ ∈ s.solutions

theorem satisfies_solution {s : Subst} (hs : s.Acyclic) : Tree.model.Satisfies (solution s) s := by
  have hmem : solution s ∈ s.solutions := Classical.epsilon_spec hs.nonempty_solutions
  exact Model.SatisfiesAll.satisfies hmem

/-- The number of variables without a binding, and after it the size of the values of the left sides. -/
noncomputable def size (V : Finset Var) (c : Stage) : Nat ×ₗ Nat :=
  toLex (free V c.store, weight (solution c.store) c.pending)

/-- From an acyclic stage every move leads to a smaller one. -/
theorem Next.size_lt {V : Finset Var} {c c' : Stage} (h : c.Next c') (hV : c.Within V) (hc : c.store.Acyclic) :
    c'.size V < c.size V := by
  rw [size, size, Prod.Lex.toLex_lt_toLex]
  cases h with
  | @agree s e rest u v hu hv hm => exact .inr ⟨rfl, weight_lt_cons e rest⟩
  | bind hu hv hm =>
    -- the solution of the new substitution may be another one, but one variable less has no binding
    obtain ⟨he, -⟩ := List.forall_mem_cons.1 hV.pending
    obtain ⟨hx, -⟩ := he.bind hV.store hu hv hm
    exact .inl (free_extend_lt hx (get?_of_bind hu hv hm) _)
  | @split s e cars cdrs rest u v hu hv hm => exact .inr ⟨rfl, weight_split (satisfies_solution hc) hu hm rest⟩

/-! ### Runs -/

/-- The second stage comes at some time after the first, or is the first. -/
abbrev Leads : Stage → Stage → Prop :=
  Relation.ReflTransGen Next

/-- A run that passes only acyclic substitutions comes to an end. -/
theorem ends_of_acyclic {c : Stage} (hc : ∀ c', c.Leads c' → c'.store.Acyclic) : c.Ends := by
  obtain ⟨V, hV⟩ := c.exists_within
  induction hn : c.size V using WellFoundedLT.induction generalizing c with
  | ind n ih =>
    subst hn
    have hacyclic := hc c .refl
    rcases ends_or_next hacyclic.ringFree with hends | ⟨c', hnext⟩
    · exact hends
    · have hc' : ∀ c'', c'.Leads c'' → c''.store.Acyclic := fun c'' h => hc c'' (h.head hnext)
      exact hnext.ends (ih _ (hnext.size_lt hV hacyclic) hc' (hnext.within hV) rfl)

/-- A move that makes a substitution cyclic is a binding of a variable to a term from which it can be reached. -/
theorem Next.exists_loop {c c' : Stage} (h : c.Next c') (hc : c.store.Acyclic) (hc' : ¬c'.store.Acyclic) :
    ∃ x t, c'.store = c.store.extend x t ∧ c.store.Reaches t x := by
  cases h with
  | agree hu hv hm => exact absurd hc hc'
  | @bind s e rest u v t x hu hv hm =>
    refine ⟨x, t, rfl, ?_⟩
    by_contra hloop
    exact hc' (hc.extend_of_not_reaches (get?_of_bind hu hv hm) hloop)
  | split hu hv hm => exact absurd hc hc'

theorem Leads.exists_loop {c c' : Stage} (h : c.Leads c') (hc : c.store.Acyclic) (hc' : ¬c'.store.Acyclic) :
    ∃ c₁ c₂ x t, c.Leads c₁ ∧ c₁.Next c₂ ∧ c₂.store = c₁.store.extend x t ∧ c₁.store.Reaches t x := by
  induction h with
  | refl => exact absurd hc hc'
  | @tail c₁ c₂ hlead hnext ih =>
    by_cases hc₁ : c₁.store.Acyclic
    · obtain ⟨x, t, hextend, hreach⟩ := hnext.exists_loop hc₁ hc'
      exact ⟨c₁, c₂, x, t, hlead, hnext, hextend, hreach⟩
    · exact ih hc₁

end Stage

/-! ### Terms without variables -/

theorem Subst.walk?_of_vars_eq_nil (s : Subst) {t : Term} (ht : t.vars = []) : s.walk? t = some t := by
  cases t with
  | var x => simp [Term.vars] at ht
  | _ => rfl

/-- The recursion on two terms without variables ends without a binding, and succeeds if they are the same tree. -/
theorem exists_unifiesRec_of_ground (s : Subst) {u v : Term} (hu : u.vars = []) (hv : v.vars = []) :
    ∃ events, UnifiesRec ⟨u, v⟩ s ⟨events, if u.same v then some s else none⟩ := by
  induction hn : u.nodes using Nat.strongRecOn generalizing u v with
  | ind n ih =>
    subst hn
    have hwu := s.walk?_of_vars_eq_nil hu
    have hwv := s.walk?_of_vars_eq_nil hv
    cases hm : Move.of u v with
    | agree =>
      have hsame : u.same v = true := by
        rw [Term.same_iff]
        obtain rfl | ⟨i, j, a, rfl, rfl⟩ := Move.of_eq_agree hm
        · rfl
        · rfl
      rw [if_pos hsame]
      exact ⟨[], unifiesRec_agree hwu hwv hm⟩
    | bind x t =>
      obtain ⟨-, ⟨rfl, -⟩ | ⟨-, rfl, -⟩⟩ := Move.of_eq_bind hm
      · simp [Term.vars] at hu
      · simp [Term.vars] at hv
    | split cars cdrs =>
      obtain ⟨i, j, rfl, rfl⟩ := Move.of_eq_split hm
      obtain ⟨ha, hd⟩ := List.append_eq_nil_iff.1 hu
      obtain ⟨hb, he⟩ := List.append_eq_nil_iff.1 hv
      have hlt : cars.lhs.nodes < (Term.pair i cars.lhs cdrs.lhs).nodes ∧
          cdrs.lhs.nodes < (Term.pair i cars.lhs cdrs.lhs).nodes := by
        simp only [Term.nodes]
        omega
      obtain ⟨events, hcars⟩ := ih _ hlt.1 ha hb rfl
      obtain ⟨events', hcdrs⟩ := ih _ hlt.2 hd he rfl
      by_cases hcar : cars.lhs.same cars.rhs = true
      · -- the cdrs are met under the same substitution
        rw [if_pos hcar] at hcars
        refine ⟨events ++ events', unifiesRec_split hwu hwv hm hcars ⟨_, hcdrs, ?_⟩⟩
        simp only [Term.same_pair, hcar, true_and]
      · rw [if_neg hcar] at hcars
        refine ⟨events, unifiesRec_split hwu hwv hm hcars ?_⟩
        rw [if_neg fun h => hcar (Term.same_pair.1 h).1]
        exact Outcome.then_of_failure.2 rfl
    | clash =>
      have hsame : ¬u.same v = true := by
        intro h
        obtain hm' | ⟨cars, cdrs, hm', -⟩ := Move.of_eq_agree_or_split (Term.same_iff.1 h)
        · rw [hm] at hm'
          contradiction
        · rw [hm] at hm'
          contradiction
      rw [if_neg hsame]
      exact ⟨_, unifiesRec_clash hwu hwv hm⟩

theorem exists_solves_of_ground (s : Subst) {u v : Term} (hu : u.vars = []) (hv : v.vars = []) :
    ∃ events, Solves s [⟨u, v⟩] ⟨events, if u.same v then some s else none⟩ := by
  obtain ⟨events, h⟩ := exists_unifiesRec_of_ground s hu hv
  exact ⟨events, solves_singleton_iff.2 h⟩

/-! ### Main statement -/

/-- From an acyclic substitution, unification comes to an end if all the substitutions that it passes are acyclic; if
it does not come to an end, it has bound a variable to a term from which the variable can be reached; and it always
comes to an end on terms without variables. -/
theorem unify?_ends_or_loops {s : Subst} (hs : s.Acyclic) (u v : Term) :
    ((∀ c, Stage.Leads ⟨s, [⟨u, v⟩]⟩ c → c.store.Acyclic) → ∃ fuel o, unify? fuel u v s = some o) ∧
    ((∀ fuel, unify? fuel u v s = none) →
      ∃ c c' x t, Stage.Leads ⟨s, [⟨u, v⟩]⟩ c ∧ c.Next c' ∧ c'.store = c.store.extend x t ∧ c.store.Reaches t x) ∧
    (u.vars = [] → v.vars = [] → ∃ fuel o, unify? fuel u v s = some o) := by
  have hends : (∀ c, Stage.Leads ⟨s, [⟨u, v⟩]⟩ c → c.store.Acyclic) → ∃ fuel o, unify? fuel u v s = some o := by
    intro h
    obtain ⟨o, ho⟩ := Stage.ends_of_acyclic h
    obtain ⟨fuel, hfuel⟩ := ho.exists_solve?
    exact ⟨fuel, o, hfuel⟩
  refine ⟨hends, ?_, ?_⟩
  · intro hnone
    have hcyclic : ∃ c, Stage.Leads ⟨s, [⟨u, v⟩]⟩ c ∧ ¬c.store.Acyclic := by
      by_contra h
      obtain ⟨fuel, o, ho⟩ := hends fun c hc => by_contra fun hcyclic => h ⟨c, hc, hcyclic⟩
      rw [hnone fuel] at ho
      contradiction
    obtain ⟨c, hc, hcyclic⟩ := hcyclic
    exact hc.exists_loop hs hcyclic
  · intro hu hv
    obtain ⟨events, h⟩ := exists_solves_of_ground s hu hv
    obtain ⟨fuel, hfuel⟩ := h.exists_solve?
    exact ⟨fuel, _, hfuel⟩

/-- The substitution in which `x` is bound to `(x)` and `y` to `(y)`. -/
private def rings : Subst :=
  ⟨[(⟨1, "y"⟩, .pair 1 (.var ⟨1, "y"⟩) .nil), (⟨0, "x"⟩, .pair 0 (.var ⟨0, "x"⟩) .nil)], 2⟩

private theorem solve?_rings (fuel : Nat) (rest : List Equation) :
    solve? fuel rings (⟨.var ⟨0, "x"⟩, .var ⟨1, "y"⟩⟩ :: rest) = none := by
  induction fuel generalizing rest with
  | zero => rfl
  | succ fuel ih => exact ih (⟨.nil, .nil⟩ :: rest)

/-- Unifying `(x . (y . x))` with `((x) . ((y) . y))` binds `x` to `(x)` and `y` to `(y)`, and then it never ends. -/
theorem unify?_ends_or_loops_rings :
    Subst.empty.Acyclic ∧
      ∃ u v, (∀ fuel, unify? fuel u v .empty = none) ∧
        ∃ c c' x t, Stage.Leads ⟨.empty, [⟨u, v⟩]⟩ c ∧ c.Next c' ∧ c'.store = c.store.extend x t ∧
          c.store.Reaches t x := by
  let x : Term := .var ⟨0, "x"⟩
  let y : Term := .var ⟨1, "y"⟩
  let u : Term := .pair 2 x (.pair 3 y x)
  let v : Term := .pair 4 (.pair 0 x .nil) (.pair 5 (.pair 1 y .nil) y)
  have hmoves : ∀ fuel, unify? (fuel + 4) u v .empty =
      ((solve? fuel rings [⟨x, y⟩]).map (Outcome.after (.extended ⟨1, "y"⟩ (.pair 1 y .nil)))).map
        (Outcome.after (.extended ⟨0, "x"⟩ (.pair 0 x .nil))) := by
    intro fuel
    rfl
  have hnone : ∀ fuel, unify? fuel u v .empty = none := by
    intro fuel
    rw [Option.eq_none_iff_forall_ne_some]
    intro o ho
    have hmore : unify? (fuel + 4) u v .empty = some o := solve?_mono (Nat.le_add_right fuel 4) ho
    rw [hmoves, solve?_rings] at hmore
    contradiction
  exact ⟨Subst.acyclic_empty, u, v, hnone, (unify?_ends_or_loops Subst.acyclic_empty u v).2.1 hnone⟩

end RelLogic
