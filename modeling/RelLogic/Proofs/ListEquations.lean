import RelLogic.Proofs.Enumeration
import RelLogic.Proofs.Recursion
import RelLogic.Proofs.Sharing
import RelLogic.Supply

/-!
# Equations between lists

To unify two proper lists of one length is to unify their items in pairs, from the first to the last
(`search_lists_eq_items`).  The unifier takes the two lists apart and comes to each pair of items with the bindings
that the earlier ones made, as a conjunction does, and the spines themselves cause no event.  Where the lists have a
tail in common, it leaves out the pairs of items of that tail, each of which is one object twice: the conjunction goes
through them, and makes no binding there (`Itemwise.solves_items`, `Itemwise.solves_lists`).  Lists of different
lengths are not unified, however many of their first items are (`Solves.failure_of_lists`).
-/

namespace RelLogic

variable {s : Subst} {e : Equation} {rest : List Equation} {us vs items : List Term} {l l' : Term} {o : Outcome}

/-! ### New lists -/

namespace Term

/-- The serial numbers of the pairs that make up the spine of a term. -/
def spineSerials : Term → List Nat
  | .pair i _ d => i :: d.spineSerials
  | _ => []

/-- The spines of the two terms have no pair in common. -/
def Apart (l l' : Term) : Prop :=
  l.spineSerials.Disjoint l'.spineSerials

theorem Apart.ne {i j : Nat} {a b d e : Term} (h : Apart (pair i a d) (pair j b e)) : pair i a d ≠ pair j b e := by
  intro heq
  obtain ⟨rfl, -, -⟩ := Term.pair.inj heq
  exact h (List.mem_cons_self ..) (List.mem_cons_self ..)

theorem Apart.cdr {i j : Nat} {a b d e : Term} (h : Apart (pair i a d) (pair j b e)) : Apart d e :=
  fun _ hd he => h (List.mem_cons_of_mem _ hd) (List.mem_cons_of_mem _ he)

theorem consAll_cons (x : Term) (xs : List Term) (rest : Term) (σ : Supply) :
    consAll (x :: xs) rest σ =
      consAll xs (.pair σ.nextSerial x rest) { σ with nextSerial := σ.nextSerial + 1 } := rfl

theorem items?_consAll {rest : Term} {xs : List Term} (h : rest.items? = .ok xs) (σ : Supply) :
    (consAll items rest σ).1.items? = .ok (items.reverse ++ xs) := by
  induction items generalizing rest xs σ with
  | nil => exact h
  | cons x items ih =>
    rw [consAll_cons, ih (items?_eq_cons_iff.2 ⟨σ.nextSerial, rest, rfl, h⟩)]
    simp

theorem nextSerial_consAll (items : List Term) (rest : Term) (σ : Supply) :
    (consAll items rest σ).2.nextSerial = σ.nextSerial + items.length := by
  induction items generalizing rest σ with
  | nil => rfl
  | cons x items ih =>
    rw [consAll_cons, ih, List.length_cons]
    exact Nat.succ_add_eq_add_succ ..

theorem spineSerials_consAll {rest : Term} {σ : Supply} {i : Nat} (h : i ∈ (consAll items rest σ).1.spineSerials) :
    i ∈ rest.spineSerials ∨ σ.nextSerial ≤ i ∧ i < (consAll items rest σ).2.nextSerial := by
  induction items generalizing rest σ with
  | nil => exact .inl h
  | cons x items ih =>
    have hend := nextSerial_consAll (x :: items) rest σ
    rw [List.length_cons] at hend
    rw [consAll_cons] at h hend ⊢
    rcases ih h with hi | ⟨hle, hlt⟩
    · rcases List.mem_cons.1 hi with rfl | hi
      · exact .inr (by omega)
      · exact .inl hi
    · exact .inr ⟨Nat.le_of_succ_le hle, hlt⟩

theorem items?_ofList (items : List Term) (σ : Supply) : (ofList items σ).1.items? = .ok items := by
  rw [ofList, chain, items?_consAll items?_nil σ]
  simp

/-- A list is made of the pairs that were drawn for it. -/
theorem spineSerials_ofList {σ : Supply} {i : Nat} (h : i ∈ (ofList items σ).1.spineSerials) :
    σ.nextSerial ≤ i ∧ i < (ofList items σ).2.nextSerial := by
  rcases spineSerials_consAll h with hi | hi
  · contradiction
  · exact hi

theorem apart_ofList {σ τ : Supply}
    (h : (ofList us σ).2.nextSerial ≤ τ.nextSerial ∨ (ofList vs τ).2.nextSerial ≤ σ.nextSerial) :
    Apart (ofList us σ).1 (ofList vs τ).1 := by
  intro i hi hi'
  have hleft := spineSerials_ofList hi
  have hright := spineSerials_ofList hi'
  omega

end Term

/-! ### Equations in front of others -/

theorem Solves.imp_rest {rest' : List Equation} (h : Solves s (e :: rest) o)
    (himp : ∀ events s', Solves s [e] ⟨events, some s'⟩ → ∀ o', Solves s' rest o' → Solves s' rest' o') :
    Solves s (e :: rest') o := by
  obtain ⟨⟨events, _ | s'⟩, hfirst, hlast⟩ := solves_cons_iff_then.1 h
  · exact solves_cons_iff_then.2 ⟨_, hfirst, hlast⟩
  · obtain ⟨o', ho', rfl⟩ := hlast
    exact solves_cons_iff_then.2 ⟨_, hfirst, o', himp events s' hfirst o' ho', rfl⟩

/-- Two pairs are met by way of their parts, unless they are one object. -/
theorem solves_pairs_iff {i j : Nat} {a b c d : Term} (hne : Term.pair i a c ≠ .pair j b d) :
    Solves s (⟨.pair i a c, .pair j b d⟩ :: rest) o ↔ Solves s (⟨a, b⟩ :: ⟨c, d⟩ :: rest) o := by
  have hm : Move.of (.pair i a c) (.pair j b d) = .split ⟨a, b⟩ ⟨c, d⟩ := by simp only [Move.of, hne, if_false]
  rw [solves_cons_iff_of_walked rfl rfl, hm]

/-- Equations of which both sides are one object need nothing, if the others can be met. -/
theorem Solves.of_append {pending : List Equation} (h : Solves s (pending ++ rest) o)
    (hself : ∀ e ∈ pending, e.lhs = e.rhs) : Solves s rest o := by
  induction pending with
  | nil => exact h
  | cons e pending ih =>
    obtain ⟨he, hpending⟩ := List.forall_mem_cons.1 hself
    exact ih (h.tail_of_eq he) hpending

/-- To meet equations of which both sides are one object, walks have to come to an end. -/
theorem Solves.append (h : Solves s rest o) (hs : s.RingFree) {pending : List Equation}
    (hself : ∀ e ∈ pending, e.lhs = e.rhs) : Solves s (pending ++ rest) o := by
  induction pending with
  | nil => exact h
  | cons e pending ih =>
    obtain ⟨he, hpending⟩ := List.forall_mem_cons.1 hself
    exact solves_cons_of_bare_eq hs (congrArg Term.bare he) (ih hpending)

/-! ### Item by item -/

/-- The first items of both lists are to be made equal, then the second ones, and so on. -/
def itemEquations (us vs : List Term) : List Equation :=
  List.zipWith Equation.mk us vs

/-- The two terms are proper lists of one length, and the equations are between their items. -/
inductive Itemwise : Term → Term → List Equation → Prop
  | nil : Itemwise .nil .nil []
  | cons {i j : Nat} {u v d d' : Term} {es : List Equation} (cdrs : Itemwise d d' es) :
      Itemwise (.pair i u d) (.pair j v d') (⟨u, v⟩ :: es)

theorem itemwise_of_items? (hl : l.items? = .ok us) (hl' : l'.items? = .ok vs) (hlength : us.length = vs.length) :
    Itemwise l l' (itemEquations us vs) := by
  induction us generalizing vs l l' with
  | nil =>
    obtain rfl : vs = [] := List.length_eq_zero_iff.1 hlength.symm
    obtain rfl := Term.items?_eq_nil_iff.1 hl
    obtain rfl := Term.items?_eq_nil_iff.1 hl'
    exact .nil
  | cons u us ih =>
    obtain ⟨v, vs, rfl⟩ := List.exists_cons_of_length_eq_add_one hlength.symm
    obtain ⟨i, d, rfl, hd⟩ := Term.items?_eq_cons_iff.1 hl
    obtain ⟨j, d', rfl, hd'⟩ := Term.items?_eq_cons_iff.1 hl'
    exact .cons (ih hd hd' (Nat.succ.inj hlength))

namespace Itemwise

variable {es : List Equation}

/-- The items of one and the same list are one object in each equation. -/
theorem self (h : Itemwise l l' es) (heq : l = l') : ∀ e ∈ es, e.lhs = e.rhs := by
  induction h with
  | nil => exact nofun
  | cons _ ih =>
    obtain ⟨-, rfl, hd⟩ := Term.pair.inj heq
    exact List.forall_mem_cons.2 ⟨rfl, ih hd⟩

theorem solves_lists (hles : Itemwise l l' es) (h : Solves s (es ++ rest) o) : Solves s (⟨l, l'⟩ :: rest) o := by
  induction hles generalizing s o with
  | nil => exact .agree rfl rfl (Move.of_self _) h
  | @cons i j u v d d' es hcdrs ih =>
    by_cases heq : Term.pair i u d = .pair j v d'
    · have hrest := h.of_append (hcdrs.cons.self heq)
      exact .agree rfl rfl (heq ▸ Move.of_self _) hrest
    · rw [solves_pairs_iff heq]
      exact h.imp_rest fun _ s' _ o' ho' => ih ho'

/-- Where the lists may have a tail in common, the items have to be walked although the unifier leaves them out. -/
theorem solves_items (hles : Itemwise l l' es) (happly : l.Apart l' ∨ s.RingFree)
    (h : Solves s (⟨l, l'⟩ :: rest) o) : Solves s (es ++ rest) o := by
  induction hles generalizing s o with
  | nil => exact h.tail_of_eq rfl
  | @cons i j u v d d' es hcdrs ih =>
    by_cases heq : Term.pair i u d = .pair j v d'
    · have hs : s.RingFree := happly.resolve_left fun hapart => hapart.ne heq
      exact (h.tail_of_eq heq).append hs (hcdrs.cons.self heq)
    · refine ((solves_pairs_iff heq).1 h).imp_rest fun events s' hfirst o' ho' => ih ?_ ho'
      exact happly.imp Term.Apart.cdr fun hs => hfirst.keeps (fun hbind hs => hs.extend hbind) hs rfl

end Itemwise

theorem Solves.failure_of_clash {u v : Term} (h : Solves s (e :: rest) o) (hu : s.walk? e.lhs = some u)
    (hv : s.walk? e.rhs = some v) (hm : Move.of u v = .clash) : o.store? = none := by
  rw [h.unique (.clash hu hv hm)]

/-- Lists of different lengths have a clash where the shorter one ends, if not before. -/
theorem Solves.failure_of_lists (h : Solves s (⟨l, l'⟩ :: rest) o) (hl : l.items? = .ok us)
    (hl' : l'.items? = .ok vs) (hlength : us.length ≠ vs.length) : o.store? = none := by
  induction us generalizing vs l l' s o with
  | nil =>
    obtain ⟨v, vs, rfl⟩ := List.exists_cons_of_ne_nil (List.ne_nil_of_length_pos (Nat.pos_of_ne_zero hlength.symm))
    obtain rfl := Term.items?_eq_nil_iff.1 hl
    obtain ⟨j, d', rfl, -⟩ := Term.items?_eq_cons_iff.1 hl'
    exact h.failure_of_clash rfl rfl rfl
  | cons u us ih =>
    obtain ⟨i, d, rfl, hd⟩ := Term.items?_eq_cons_iff.1 hl
    cases vs with
    | nil =>
      obtain rfl := Term.items?_eq_nil_iff.1 hl'
      exact h.failure_of_clash rfl rfl rfl
    | cons v vs =>
      have hne : ∀ j d', l' = .pair j v d' → Term.pair i u d ≠ .pair j v d' := by
        rintro j d' rfl heq
        rw [heq, hl'] at hl
        exact hlength (congrArg List.length (Except.ok.inj hl)).symm
      obtain ⟨j, d', rfl, hd'⟩ := Term.items?_eq_cons_iff.1 hl'
      obtain ⟨⟨events, _ | s'⟩, hfirst, hlast⟩ := solves_cons_iff_then.1 ((solves_pairs_iff (hne j d' rfl)).1 h)
      · rw [Outcome.then_of_failure.1 hlast]
      · obtain ⟨o', ho', rfl⟩ := hlast
        show o'.store? = none
        exact ih ho' hd hd' fun h => hlength (congrArg Nat.succ h)

/-! ### Searching for all items -/

/-- The search of the goal, given enough moves for each unification, ends with the results and the record. -/
def Goal.Gives (g : Goal Equation) (s : Subst) (past : List Event) (results : List Subst)
    (past' : List Event) : Prop :=
  ∃ fuel, g.solutions fuel s past = some (results, past')

section

variable {es : List Equation} {past past' : List Event} {results : List Subst}

theorem exists_solves_of_levels {fuel : Nat}
    (h : (Search.levels (es.map (Equation.search fuel)) [s] : Traced (List Subst)) past = some (results, past')) :
    ∃ o, Solves s es o ∧ results = o.store?.toList ∧ past' = o.events.reverse ++ past := by
  induction es generalizing s past with
  | nil =>
    rw [List.map_nil, Search.levels_nil] at h
    have h' : some ([s], past) = some (results, past') := h
    obtain ⟨rfl, rfl⟩ : [s] = results ∧ past = past' := by simpa using h'
    exact ⟨_, .done s, rfl, rfl⟩
  | cons e es ih =>
    rw [List.map_cons, Search.levels_cons, Search.each_singleton, Traced.bind_apply, Option.bind_eq_some_iff] at h
    obtain ⟨⟨states, mid⟩, hstates, h⟩ := h
    obtain ⟨⟨events, last?⟩, hfirst, rfl, rfl⟩ := Equation.search_eq_some_iff.1 hstates
    have hrun : Solves s [e] ⟨events, last?⟩ := solves_of_solve? hfirst
    cases last? with
    | none =>
      -- no state is left for the other equations
      simp only [Option.toList_none, Search.levels_empty] at h
      have h' : some ([], events.reverse ++ past) = some (results, past') := h
      obtain ⟨rfl, rfl⟩ : [] = results ∧ events.reverse ++ past = past' := by simpa using h'
      exact ⟨_, solves_cons_iff_then.2 ⟨_, hrun, rfl⟩, rfl, rfl⟩
    | some s' =>
      obtain ⟨o, ho, rfl, rfl⟩ := ih h
      exact ⟨_, solves_cons_iff_then.2 ⟨_, hrun, o, ho, rfl⟩, rfl, by simp⟩

theorem Solves.exists_levels (h : Solves s es o) : ∃ n, ∀ m, n ≤ m → ∀ past,
    (Search.levels (es.map (Equation.search m)) [s] : Traced (List Subst)) past =
      some (o.store?.toList, o.events.reverse ++ past) := by
  induction es generalizing s o with
  | nil =>
    cases h
    exact ⟨0, fun m _ past => by rw [List.map_nil, Search.levels_nil]; rfl⟩
  | cons e es ih =>
    obtain ⟨⟨events, last?⟩, hfirst, hlast⟩ := solves_cons_iff_then.1 h
    obtain ⟨n, hn⟩ := hfirst.exists_solve?
    have hsearch : ∀ m, n ≤ m → ∀ past, e.search m s past = some (last?.toList, events.reverse ++ past) :=
      fun m hm past => Equation.search_eq_some_iff.2 ⟨_, solve?_mono hm hn, rfl, rfl⟩
    have hlevels : ∀ m, n ≤ m → ∀ past, (Search.levels ((e :: es).map (Equation.search m)) [s] : Traced _) past =
        (Search.levels (es.map (Equation.search m)) last?.toList : Traced _) (events.reverse ++ past) := by
      intro m hm past
      rw [List.map_cons, Search.levels_cons, Search.each_singleton, Traced.bind_apply, hsearch m hm past]
      rfl
    cases last? with
    | none =>
      obtain rfl := hlast
      refine ⟨n, fun m hm past => ?_⟩
      rw [hlevels m hm, Option.toList_none, Search.levels_empty]
      rfl
    | some s' =>
      obtain ⟨o', ho', rfl⟩ := hlast
      obtain ⟨k, hk⟩ := ih ho'
      refine ⟨max n k, fun m hm past => ?_⟩
      rw [hlevels m (by omega), Option.toList_some, hk m (by omega)]
      simp

/-- The search of a conjunction of equations is a run on the equations. -/
theorem Goal.gives_conjAll_iff : (Goal.conjAll (es.map .prim)).Gives s past results past' ↔
    ∃ o, Solves s es o ∧ results = o.store?.toList ∧ past' = o.events.reverse ++ past := by
  have hsearch : ∀ fuel, (Goal.conjAll (es.map .prim)).solutions fuel s =
      Search.levels (es.map (Equation.search fuel)) [s] := by
    intro fuel
    rw [Goal.solutions, Goal.search, Goal.searches_eq_map, List.map_map]
    rfl
  simp only [Goal.Gives, hsearch]
  constructor
  · rintro ⟨fuel, h⟩
    exact exists_solves_of_levels h
  · rintro ⟨o, ho, rfl, rfl⟩
    obtain ⟨n, hn⟩ := ho.exists_levels
    exact ⟨n, hn n (Nat.le_refl n) past⟩

theorem Goal.gives_prim_iff : (Goal.prim e).Gives s past results past' ↔
    ∃ o, Solves s [e] o ∧ results = o.store?.toList ∧ past' = o.events.reverse ++ past := by
  have hsearch : ∀ fuel, (Goal.prim e).solutions fuel s = e.search fuel s := fun _ => rfl
  simp only [Goal.Gives, hsearch, Equation.search_eq_some_iff]
  constructor
  · rintro ⟨fuel, o, ho, hresult⟩
    exact ⟨o, solves_of_solve? ho, hresult⟩
  · rintro ⟨o, ho, hresult⟩
    obtain ⟨fuel, hfuel⟩ := ho.exists_solve?
    exact ⟨fuel, o, hfuel, hresult⟩

theorem Itemwise.gives_lists (hles : Itemwise l l' es)
    (h : (Goal.conjAll (es.map .prim)).Gives s past results past') :
    (Goal.prim ⟨l, l'⟩).Gives s past results past' := by
  obtain ⟨o, ho, hresult⟩ := Goal.gives_conjAll_iff.1 h
  rw [← List.append_nil es] at ho
  exact Goal.gives_prim_iff.2 ⟨o, hles.solves_lists ho, hresult⟩

theorem Itemwise.gives_items (hles : Itemwise l l' es) (happly : l.Apart l' ∨ s.RingFree)
    (h : (Goal.prim ⟨l, l'⟩).Gives s past results past') :
    (Goal.conjAll (es.map .prim)).Gives s past results past' := by
  obtain ⟨o, ho, hresult⟩ := Goal.gives_prim_iff.1 h
  have hitems := hles.solves_items happly ho
  rw [List.append_nil] at hitems
  exact Goal.gives_conjAll_iff.2 ⟨o, hitems, hresult⟩

end

/-! ### Main statement -/

/-- The goal that the items of the first list are equal to those of the second in pairs. -/
def Goal.allEqual (us vs : List Term) : Goal Equation :=
  .conjAll ((itemEquations us vs).map .prim)

/-- From any substitution the search of an equation between two lists, each made of new pairs for items of the same
number, gives what the conjunction of the equations between the items gives: it ends if the other ends, with the same
results and the same record.  The conjunction can be replaced by the equation for any proper lists of these items,
whatever pairs they have in common, and the equation by the conjunction if no walk goes round a ring.  Proper lists of
different lengths are never unified. -/
theorem search_lists_eq_items (us vs : List Term) (s : Subst) :
    (∀ items σ, (Term.ofList items σ).1.items? = .ok items) ∧
      (us.length = vs.length → ∀ past results past',
        (∀ σ τ, (Term.ofList us σ).2.nextSerial ≤ τ.nextSerial ∨ (Term.ofList vs τ).2.nextSerial ≤ σ.nextSerial →
          ((Goal.prim ⟨(Term.ofList us σ).1, (Term.ofList vs τ).1⟩).Gives s past results past' ↔
            (Goal.allEqual us vs).Gives s past results past')) ∧
        ∀ l l', l.items? = .ok us → l'.items? = .ok vs →
          ((Goal.allEqual us vs).Gives s past results past' → (Goal.prim ⟨l, l'⟩).Gives s past results past') ∧
          (s.RingFree →
            (Goal.prim ⟨l, l'⟩).Gives s past results past' → (Goal.allEqual us vs).Gives s past results past')) ∧
      (us.length ≠ vs.length → ∀ l l', l.items? = .ok us → l'.items? = .ok vs →
        ∀ fuel o, unify? fuel l l' s = some o → o.store? = none) := by
  refine ⟨Term.items?_ofList, fun hlength past results past' => ⟨fun σ τ hnew => ?_, fun l l' hl hl' => ?_⟩, ?_⟩
  · have hles := itemwise_of_items? (Term.items?_ofList us σ) (Term.items?_ofList vs τ) hlength
    exact ⟨hles.gives_items (.inl (Term.apart_ofList hnew)), hles.gives_lists⟩
  · have hles := itemwise_of_items? hl hl' hlength
    exact ⟨hles.gives_lists, fun hs => hles.gives_items (.inr hs)⟩
  · intro hlength l l' hl hl' fuel o h
    exact (solves_of_solve? h).failure_of_lists hl hl' hlength

/-- New lists `(x x)` and `(y true)` are unified by binding `x` to `y` and then `y` to `true`. -/
theorem search_lists_eq_items_chain :
    ∃ past', (Goal.prim
        ⟨(Term.ofList [.var ⟨0, "x"⟩, .var ⟨0, "x"⟩] ⟨2, 1⟩).1,
          (Term.ofList [.var ⟨1, "y"⟩, .atom 0 (.bool true)] ⟨2, 3⟩).1⟩).Gives .empty []
      [⟨[(⟨1, "y"⟩, .atom 0 (.bool true)), (⟨0, "x"⟩, .var ⟨1, "y"⟩)], 2⟩] past' := by
  obtain ⟨-, hsame, -⟩ := search_lists_eq_items [.var ⟨0, "x"⟩, .var ⟨0, "x"⟩]
    [.var ⟨1, "y"⟩, .atom 0 (.bool true)] .empty
  exact ⟨_, ((hsame rfl _ _ _).1 ⟨2, 1⟩ ⟨2, 3⟩ (.inl (Nat.le_refl 3))).2 ⟨1, rfl⟩⟩

/-- With `x` and `y` bound to each other, the list `(x)` is unified with itself, but walking its item has no end. -/
example (fuel : Nat) :
    unify? 1 (.pair 0 (.var ⟨0, "x"⟩) .nil) (.pair 0 (.var ⟨0, "x"⟩) .nil)
        ⟨[(⟨0, "x"⟩, .var ⟨1, "y"⟩), (⟨1, "y"⟩, .var ⟨0, "x"⟩)], 2⟩ =
      some ⟨[], some ⟨[(⟨0, "x"⟩, .var ⟨1, "y"⟩), (⟨1, "y"⟩, .var ⟨0, "x"⟩)], 2⟩⟩ ∧
    unify? fuel (.var ⟨0, "x"⟩) (.var ⟨0, "x"⟩)
      ⟨[(⟨0, "x"⟩, .var ⟨1, "y"⟩), (⟨1, "y"⟩, .var ⟨0, "x"⟩)], 2⟩ = none := by
  cases fuel <;> exact ⟨rfl, rfl⟩

end RelLogic
