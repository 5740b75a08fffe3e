import Mathlib.Data.List.Forall2
import RelLogic.Proofs.Region
import RelLogic.Proofs.Resolution

/-!
# Sharing makes no difference to unification

Which terms are one object decides where the unifier skips an equation, so it goes through the same terms by different
moves if they are built in different ways.  Every problem is compared with its bare form, in which terms of one
structure are one object and every skip is taken at once.  A run on a problem gives a run on the bare form by leaving
out moves (`Solves.bare`).  Conversely a skip of the bare form stands for moves through two terms of one structure,
which come to an end without a binding or an event (`solves_cons_of_bare_eq`), also where bindings are cyclic: they go
down the terms as they stand, and enter no binding but at a variable that both sides share.
-/

namespace RelLogic

variable {s : Subst} {e : Equation} {rest pending : List Equation} {u v t : Term} {o : Outcome}

/-! ### From a problem to its bare form -/

theorem Solves.tail_of_eq (h : Solves s (e :: rest) o) (he : e.lhs = e.rhs) : Solves s rest o := by
  have hwalked : ∀ {u v}, s.walk? e.lhs = some u → s.walk? e.rhs = some v → Move.of u v = .agree := by
    intro u v hu hv
    rw [he, hv] at hu
    rw [Option.some.inj hu, Move.of_self]
  cases h with
  | agree _ _ _ run => exact run
  | bind hu hv hm _ => simp [hwalked hu hv] at hm
  | split hu hv hm _ => simp [hwalked hu hv] at hm
  | clash hu hv hm => simp [hwalked hu hv] at hm

theorem Subst.walk?_bare_of_eq {t u : Term} (h : s.walk? t = some u) : s.bare.walk? t.bare = some u.bare := by
  rw [walk?_bare, h, Option.map_some]

theorem Solves.bare (h : Solves s pending o) : Solves s.bare (pending.map Equation.bare) o.bare := by
  induction h with
  | done s => exact .done s.bare
  | @agree s e rest u v o hu hv hm _ ih =>
    refine .agree (Subst.walk?_bare_of_eq hu) (Subst.walk?_bare_of_eq hv) ?_ ih
    rw [Move.of_bare, hm]
    exact ite_self _
  | @bind s e rest u v t x o hu hv hm _ ih =>
    have hne : u.bare ≠ v.bare := fun h => by simpa [hm] using Move.of_eq_agree_or_split h
    rw [Subst.bare_extend] at ih
    refine .bind (Subst.walk?_bare_of_eq hu) (Subst.walk?_bare_of_eq hv) ?_ ih
    rw [Move.of_bare, if_neg hne, hm]
    rfl
  | @split s e cars cdrs rest u v o hu hv hm _ ih =>
    by_cases heq : u.bare = v.bare
    · -- the bare pairs are one object, and so are their parts
      obtain ⟨hcars, hcdrs⟩ : cars.bare.lhs = cars.bare.rhs ∧ cdrs.bare.lhs = cdrs.bare.rhs := by
        obtain hm' | ⟨cars', cdrs', hm', hparts⟩ := Move.of_eq_agree_or_split heq
        · rw [hm] at hm'
          contradiction
        · obtain ⟨rfl, rfl⟩ := Move.split.inj (hm.symm.trans hm')
          exact hparts
      refine .agree (Subst.walk?_bare_of_eq hu) (Subst.walk?_bare_of_eq hv) ?_ ?_
      · rw [heq, Move.of_self]
      · exact (ih.tail_of_eq hcars).tail_of_eq hcdrs
    · refine .split (Subst.walk?_bare_of_eq hu) (Subst.walk?_bare_of_eq hv) ?_ ih
      rw [Move.of_bare, if_neg heq, hm]
      rfl
  | @clash s e rest u v hu hv hm =>
    have hne : u.bare ≠ v.bare := fun h => by simpa [hm] using Move.of_eq_agree_or_split h
    refine .clash (Subst.walk?_bare_of_eq hu) (Subst.walk?_bare_of_eq hv) ?_
    rw [Move.of_bare, if_neg hne, hm]
    rfl

/-! ### From the bare form to a problem -/

/-- Only what the two sides walk to counts. -/
theorem solves_cons_congr {e' : Equation} (hl : s.walk? e.lhs = s.walk? e'.lhs) (hr : s.walk? e.rhs = s.walk? e'.rhs)
    (h : Solves s (e :: rest) o) : Solves s (e' :: rest) o := by
  cases h with
  | agree hu hv hm run => exact .agree (hl ▸ hu) (hr ▸ hv) hm run
  | bind hu hv hm run => exact .bind (hl ▸ hu) (hr ▸ hv) hm run
  | split hu hv hm run => exact .split (hl ▸ hu) (hr ▸ hv) hm run
  | clash hu hv hm => exact .clash (hl ▸ hu) (hr ▸ hv) hm

/-- Two terms of one structure are met without a binding, a clash or an event, whatever is bound. -/
theorem solves_cons_of_bare_eq (hs : s.RingFree) (huv : u.bare = v.bare) (h : Solves s rest o) :
    Solves s (⟨u, v⟩ :: rest) o := by
  induction u generalizing v rest with
  | nil =>
    obtain rfl : v = .nil := by cases v <;> simp_all [Term.bare]
    exact .agree rfl rfl (Move.of_self _) h
  | atom i a =>
    obtain ⟨j, rfl⟩ : ∃ j, v = .atom j a := by cases v <;> simp_all [Term.bare]
    exact .agree rfl rfl (by simp [Move.of]) h
  | var x =>
    -- the only walk into a binding, and both sides make it
    obtain rfl : v = .var x := Term.bare_eq_var_iff.1 huv.symm
    obtain ⟨t, ht⟩ := Subst.exists_walk? hs (.var x)
    exact .agree ht ht (Move.of_self t) h
  | pair i a d iha ihd =>
    obtain ⟨j, b, e, rfl⟩ : ∃ j b e, v = .pair j b e := by cases v <;> simp_all [Term.bare]
    obtain hm | ⟨cars, cdrs, hm, hcars, hcdrs⟩ := Move.of_eq_agree_or_split huv
    · exact .agree rfl rfl hm h
    · obtain ⟨_, _, ⟨⟩, ⟨⟩⟩ := Move.of_eq_split hm
      exact .split rfl rfl hm (iha hcars (ihd hcdrs h))

theorem solves_cons_of_walked (hs : s.RingFree) (hu : s.walk? e.lhs = some u) (hv : s.walk? e.rhs = some v)
    (huv : u.bare = v.bare) (h : Solves s rest o) : Solves s (e :: rest) o := by
  refine solves_cons_congr ?_ ?_ (solves_cons_of_bare_eq hs huv h)
  · rw [hu, Subst.walk?_of_walk? hu]
  · rw [hv, Subst.walk?_of_walk? hv]

private theorem exists_front_of_bare {e' : Equation} {rest' : List Equation} {u' v' : Term}
    (hpending : pending.map Equation.bare = e' :: rest') (hu' : s.bare.walk? e'.lhs = some u')
    (hv' : s.bare.walk? e'.rhs = some v') :
    ∃ e rest u v, pending = e :: rest ∧ rest.map Equation.bare = rest' ∧ s.walk? e.lhs = some u ∧
      s.walk? e.rhs = some v ∧ u.bare = u' ∧ v.bare = v' := by
  obtain ⟨e, rest, rfl, rfl, hrest⟩ := List.map_eq_cons_iff.1 hpending
  have hwalk : ∀ {t w' : Term}, s.bare.walk? t.bare = some w' → ∃ w, s.walk? t = some w ∧ w.bare = w' := by
    intro t w' h
    rw [Subst.walk?_bare] at h
    exact Option.map_eq_some_iff.1 h
  obtain ⟨u, hu, hu'⟩ := hwalk hu'
  obtain ⟨v, hv, hv'⟩ := hwalk hv'
  exact ⟨e, rest, u, v, rfl, hrest, hu, hv, hu', hv'⟩

private theorem exists_solves_of_bare {b : Subst} {bares : List Equation} {o' : Outcome} (h : Solves b bares o')
    (hs : s.RingFree) (hb : s.bare = b) (hbares : pending.map Equation.bare = bares) :
    ∃ o, Solves s pending o ∧ o.bare = o' := by
  induction h generalizing s pending with
  | done b =>
    obtain rfl : pending = [] := by simpa using hbares
    exact ⟨_, .done s, by rw [← hb]; rfl⟩
  | agree hbu hbv hm _ ih =>
    subst hb
    obtain ⟨e, rest, u, v, rfl, rfl, hu, hv, rfl, rfl⟩ := exists_front_of_bare hbares hbu hbv
    obtain ⟨o, hrun, ho⟩ := ih hs rfl rfl
    exact ⟨o, solves_cons_of_walked hs hu hv (Move.eq_of_bare_agree hm) hrun, ho⟩
  | bind hbu hbv hm _ ih =>
    subst hb
    obtain ⟨e, rest, u, v, rfl, rfl, hu, hv, rfl, rfl⟩ := exists_front_of_bare hbares hbu hbv
    have hbare := Move.bare_eq_of_ne_agree hm (by simp)
    cases hm' : Move.of u v with
    | bind x t =>
      obtain ⟨rfl, rfl⟩ := Move.bind.inj (hm' ▸ hbare)
      obtain ⟨o, hrun, rfl⟩ := ih (hs.extend (canBind_of_bind hu hv hm')) rfl rfl
      exact ⟨_, .bind hu hv hm' hrun, rfl⟩
    | _ => simp [hm', Move.bare] at hbare
  | split hbu hbv hm _ ih =>
    subst hb
    obtain ⟨e, rest, u, v, rfl, rfl, hu, hv, rfl, rfl⟩ := exists_front_of_bare hbares hbu hbv
    have hbare := Move.bare_eq_of_ne_agree hm (by simp)
    cases hm' : Move.of u v with
    | split cars cdrs =>
      obtain ⟨rfl, rfl⟩ := Move.split.inj (hm' ▸ hbare)
      have hparts : (cars :: cdrs :: rest).map Equation.bare = cars.bare :: cdrs.bare :: rest.map Equation.bare := rfl
      obtain ⟨o, hrun, rfl⟩ := ih hs rfl hparts
      exact ⟨o, .split hu hv hm' hrun, rfl⟩
    | _ => simp [hm', Move.bare] at hbare
  | clash hbu hbv hm =>
    subst hb
    obtain ⟨e, rest, u, v, rfl, rfl, hu, hv, rfl, rfl⟩ := exists_front_of_bare hbares hbu hbv
    have hbare := Move.bare_eq_of_ne_agree hm (by simp)
    cases hm' : Move.of u v with
    | clash => exact ⟨_, .clash hu hv hm', rfl⟩
    | _ => simp [hm', Move.bare] at hbare

/-- A problem and its bare form have the same runs, but for serial numbers. -/
theorem solves_bare_iff (hs : s.RingFree) {o' : Outcome} :
    Solves s.bare (pending.map Equation.bare) o' ↔ ∃ o, Solves s pending o ∧ o.bare = o' := by
  constructor
  · exact fun h => exists_solves_of_bare h hs rfl rfl
  · rintro ⟨o, h, rfl⟩
    exact h.bare

/-! ### Problems that are alike -/

theorem Subst.ringFree_bare : s.bare.RingFree ↔ s.RingFree := by
  have haliases : s.bare.Aliases = s.Aliases := by
    funext x y
    simp [Aliases, get?_bare]
  rw [RingFree, RingFree, haliases]

theorem Solves.exists_alike (h : Solves s pending o) {s' : Subst} {pending' : List Equation} (hs' : s'.RingFree)
    (hss' : s'.bare = s.bare) (hpending : pending'.map Equation.bare = pending.map Equation.bare) :
    ∃ o', Solves s' pending' o' ∧ o'.bare = o.bare := by
  rw [← solves_bare_iff hs', hss', hpending]
  exact h.bare

/-- Two bindings of one variable, to terms of one structure. -/
def SameBinding (b c : Var × Term) : Prop :=
  b.1 = c.1 ∧ b.2.same c.2 = true

theorem forall₂_sameBinding_iff {s s' : Subst} :
    List.Forall₂ SameBinding s.bindings s'.bindings ↔ s.bare = s'.bare := by
  have hpair : SameBinding = fun b c => (b.1, b.2.bare) = (c.1, c.2.bare) := by
    funext b c
    rw [SameBinding, Term.same_iff, Prod.mk.injEq]
  have hmap : List.Forall₂ SameBinding s.bindings s'.bindings ↔ s.bare.bindings = s'.bare.bindings := by
    rw [Subst.bare, Subst.bare, ← List.forall₂_eq_eq_eq, List.forall₂_map_left_iff, List.forall₂_map_right_iff, hpair]
  refine ⟨fun h => ?_, fun h => hmap.2 (congrArg Subst.bindings h)⟩
  rw [Subst.bare, Subst.bare, Subst.mk.injEq]
  exact ⟨hmap.1 h, h.length_eq⟩

theorem Solves.exists_append {r : Subst} (h : Solves s pending o) (hr : o.store? = some r) :
    ∃ new, r = s.extendAll new := by
  have hextend : ∀ {r : Subst} {x t}, r.CanBind x t → (∃ new, r = s.extendAll new) →
      ∃ new, r.extend x t = s.extendAll new := by
    rintro _ x t - ⟨new, rfl⟩
    exact ⟨(x, t) :: new, rfl⟩
  exact h.keeps hextend ⟨[], rfl⟩ hr

theorem render_eq_of_bare {events events' : List Event} (h : events.map Event.bare = events'.map Event.bare) :
    events.map Event.render = events'.map Event.render := by
  have hrender : Event.render = Event.render ∘ Event.bare := funext fun e => e.render_bare.symm
  rw [hrender, ← List.map_map, ← List.map_map, h]

/-! ### Copies -/

/-- Resolving without bindings makes a copy. -/
theorem Subst.exists_copy (t : Term) (σ : Supply) :
    ∃ copy σ', empty.resolve? t σ = some (copy, σ') ∧ t.same copy = true := by
  obtain ⟨copy, σ', h⟩ := exists_resolve? acyclic_empty t σ
  refine ⟨copy, σ', h, Term.same_iff.2 ?_⟩
  exact (resolves_bare_iff.2 fun y _ => get?_empty y).unique (resolves_of_resolve? h)

/-! ### Main statement -/

/-- Terms of one structure, under bindings of the same variables to terms of one structure, are unified alike, whatever
objects they are made of: unification ends for both or for neither, it fails for both or binds the same variables in
the same order to terms of one structure, and the events are written in the same way.  A copy of a term, as resolving
makes it, has the structure of the term. -/
theorem unify?_sharing {s s' : Subst} (hs : s.RingFree) (hss' : List.Forall₂ SameBinding s.bindings s'.bindings)
    {u u' v v' : Term} (hu : u.same u' = true) (hv : v.same v' = true) :
    ((∃ fuel o, unify? fuel u v s = some o) ↔ ∃ fuel o, unify? fuel u' v' s' = some o) ∧
    (∀ fuel fuel' o o', unify? fuel u v s = some o → unify? fuel' u' v' s' = some o' →
      o.events.map Event.render = o'.events.map Event.render ∧
      (o.store? = none ∧ o'.store? = none ∨
        ∃ new new', o.store? = some (s.extendAll new) ∧ o'.store? = some (s'.extendAll new') ∧
          List.Forall₂ SameBinding new new')) ∧
    ∀ t σ, ∃ copy σ', Subst.empty.resolve? t σ = some (copy, σ') ∧ t.same copy = true := by
  have hbare : s.bare = s'.bare := forall₂_sameBinding_iff.1 hss'
  have hs' : s'.RingFree := by rwa [← Subst.ringFree_bare, ← hbare, Subst.ringFree_bare]
  have hsides : [⟨u, v⟩].map Equation.bare = [⟨u', v'⟩].map Equation.bare := by
    simp [Equation.bare, Term.same_iff.1 hu, Term.same_iff.1 hv]
  refine ⟨⟨?_, ?_⟩, fun fuel fuel' o o' h h' => ?_, Subst.exists_copy⟩
  · rintro ⟨fuel, o, h⟩
    obtain ⟨o', h', -⟩ := (solves_of_solve? h).exists_alike hs' hbare.symm hsides.symm
    obtain ⟨fuel', h'⟩ := h'.exists_solve?
    exact ⟨fuel', o', h'⟩
  · rintro ⟨fuel', o', h'⟩
    obtain ⟨o, h, -⟩ := (solves_of_solve? h').exists_alike hs hbare hsides
    obtain ⟨fuel, h⟩ := h.exists_solve?
    exact ⟨fuel, o, h⟩
  · have hrun := solves_of_solve? h
    have hrun' := solves_of_solve? h'
    obtain ⟨o'', h'', halike⟩ := hrun.exists_alike hs' hbare.symm hsides.symm
    obtain rfl := hrun'.unique h''
    obtain ⟨hevents, hstore⟩ := Outcome.mk.inj halike
    refine ⟨(render_eq_of_bare hevents).symm, ?_⟩
    cases hr : o.store? with
    | none => exact .inl ⟨rfl, by simpa [hr] using hstore⟩
    | some r =>
      obtain ⟨r', hr', hrr'⟩ : ∃ r', o'.store? = some r' ∧ r'.bare = r.bare := by simpa [hr] using hstore
      obtain ⟨new, rfl⟩ := hrun.exists_append hr
      obtain ⟨new', rfl⟩ := hrun'.exists_append hr'
      refine .inr ⟨new, new', rfl, hr', ?_⟩
      have hall : List.Forall₂ SameBinding (new ++ s.bindings) (new' ++ s'.bindings) :=
        forall₂_sameBinding_iff.2 hrr'.symm
      have hlength : new.length = new'.length := by
        have h₁ := hall.length_eq
        have h₂ := hss'.length_eq
        simp only [List.length_append] at h₁
        omega
      have htake := List.forall₂_take_append _ _ _ hall
      rwa [← hlength, List.take_left] at htake

/-- With `x` bound to `(x)`, the variable `x` is unified with that very pair in one move, and with another pair `(x)`
by taking both pairs apart. -/
theorem unify?_sharing_cyclic :
    Subst.RingFree ⟨[(⟨0, "x"⟩, .pair 0 (.var ⟨0, "x"⟩) .nil)], 1⟩ ∧
      unify? 1 (.var ⟨0, "x"⟩) (.pair 0 (.var ⟨0, "x"⟩) .nil) ⟨[(⟨0, "x"⟩, .pair 0 (.var ⟨0, "x"⟩) .nil)], 1⟩ =
        some ⟨[], some ⟨[(⟨0, "x"⟩, .pair 0 (.var ⟨0, "x"⟩) .nil)], 1⟩⟩ ∧
      ∃ fuel o, unify? fuel (.var ⟨0, "x"⟩) (.pair 1 (.var ⟨0, "x"⟩) .nil)
        ⟨[(⟨0, "x"⟩, .pair 2 (.var ⟨0, "x"⟩) .nil)], 1⟩ = some o := by
  have hs : Subst.RingFree ⟨[(⟨0, "x"⟩, .pair 0 (.var ⟨0, "x"⟩) .nil)], 1⟩ :=
    Subst.acyclic_empty.ringFree.extend ⟨rfl, nofun, nofun⟩
  have hss' : List.Forall₂ SameBinding [(⟨0, "x"⟩, .pair 0 (.var ⟨0, "x"⟩) .nil)]
      [(⟨0, "x"⟩, .pair 2 (.var ⟨0, "x"⟩) .nil)] :=
    .cons ⟨rfl, Term.same_iff.2 rfl⟩ .nil
  have hu : (Term.var ⟨0, "x"⟩).same (.var ⟨0, "x"⟩) = true := Term.same_iff.2 rfl
  have hv : (Term.pair 0 (.var ⟨0, "x"⟩) .nil).same (.pair 1 (.var ⟨0, "x"⟩) .nil) = true := Term.same_iff.2 rfl
  exact ⟨hs, rfl, (unify?_sharing hs hss' hu hv).1.1 ⟨1, _, rfl⟩⟩

end RelLogic
