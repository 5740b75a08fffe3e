import RelLogic.Proofs.Invariant

/-!
# Well-formed substitutions

A substitution is well formed if it counts its bindings rightly, no variable is bound twice, and a variable that is
bound to a variable is bound to one that has no binding or a later one.  The bindings of a chain of variables are ever
later ones, so walks come to an end (`Subst.WellFormed.ringFree`).  Nothing checks this when a binding is made; it is
kept because every binding is counted, and because the unifier binds only variables at which walks have ended, to terms
at which walks have ended (`Subst.WellFormed.extend`).  A binding that makes a substitution cyclic through a pair does
not disturb it.
-/

namespace RelLogic

namespace Subst

/-- The count is that of the bindings, no variable is bound twice, and variables are bound to variables without a
binding or with a later one. -/
structure WellFormed (s : Subst) : Prop where
  size_eq : s.size = s.bindings.length
  nodup : s.bound.Nodup
  later : ∀ {newer older x y}, s.bindings = newer ++ (x, .var y) :: older →
    y ≠ x ∧ (s.get? y = none ∨ y ∈ newer.map Prod.fst)

theorem wellFormed_empty : empty.WellFormed := by
  refine ⟨rfl, List.nodup_nil, fun {newer} _ _ _ h => ?_⟩
  cases newer <;> cases h

theorem WellFormed.extend {s : Subst} (hs : s.WellFormed) {x : Var} {t : Term} (h : s.CanBind x t) :
    (s.extend x t).WellFormed := by
  refine ⟨?_, ?_, fun {newer older y z} hsplit => ?_⟩
  · rw [size_extend, hs.size_eq, Subst.extend, List.length_cons]
  · rw [bound_extend, List.nodup_cons]
    exact ⟨get?_eq_none_iff.1 h.unbound, hs.nodup⟩
  · cases newer with
    | nil =>
      -- the new binding itself
      obtain ⟨⟨rfl, rfl⟩, -⟩ : (x = y ∧ t = .var z) ∧ s.bindings = older := by simpa [Subst.extend] using hsplit
      have hne : z ≠ x := fun e => h.other (by rw [e])
      exact ⟨hne, .inl (by rw [get?_extend, if_neg hne, h.walked z rfl])⟩
    | cons b newer =>
      obtain ⟨rfl, hold⟩ : (x, t) = b ∧ s.bindings = newer ++ (y, .var z) :: older := by
        simpa [Subst.extend] using hsplit
      obtain ⟨hne, hfree | hlater⟩ := hs.later hold
      · refine ⟨hne, ?_⟩
        by_cases hz : z = x
        · exact .inr (by simp [hz])
        · exact .inl (by rw [get?_extend, if_neg hz, hfree])
      · exact ⟨hne, .inr (List.mem_cons_of_mem _ hlater)⟩

/-- A variable that has a binding, and to which another is bound, has the later binding of the two. -/
theorem WellFormed.idxOf_lt {s : Subst} (hs : s.WellFormed) {x y : Var} (hxy : s.Aliases x y) (hy : y ∈ s.bound) :
    s.bound.idxOf y < s.bound.idxOf x := by
  obtain ⟨newer, older, hsplit, hnewer⟩ := List.lookup_eq_some_iff.1 hxy
  have hbound : s.bound = newer.map Prod.fst ++ x :: older.map Prod.fst := by simp [bound, hsplit]
  have hx : x ∉ newer.map Prod.fst := by
    intro hmem
    obtain ⟨b, hb, rfl⟩ := List.mem_map.1 hmem
    simpa using hnewer b hb
  have hlater : y ∈ newer.map Prod.fst := (hs.later hsplit).2.resolve_left fun h => get?_eq_none_iff.1 h hy
  rw [hbound, List.idxOf_append, if_pos hlater, List.idxOf_append, if_neg hx, List.idxOf_cons_self, Nat.zero_add]
  exact List.idxOf_lt_length_of_mem hlater

theorem WellFormed.ringFree {s : Subst} (hs : s.WellFormed) : s.RingFree := by
  have hchain : ∀ {x y}, Relation.TransGen s.Aliases x y → y ∈ s.bound → s.bound.idxOf y < s.bound.idxOf x := by
    intro x y hxy
    induction hxy with
    | single hxb => exact hs.idxOf_lt hxb
    | tail _ hbc ih =>
      intro hc
      have hlt := ih (mem_bound_of_get? hbc)
      have hlt' := hs.idxOf_lt hbc hc
      omega
  intro x hxx
  obtain ⟨y, hxy, -⟩ := Relation.TransGen.head'_iff.1 hxx
  have hlt := hchain hxx (mem_bound_of_get? hxy)
  omega

/-! ### Walks and lookups -/

theorem exists_walk?_ends {s : Subst} (hs : s.RingFree) (t : Term) : ∃ u, s.walk? t = some u ∧ s.Ends u := by
  obtain ⟨u, hu⟩ := exists_walk? hs t
  exact ⟨u, hu, (walk?_eq_some_iff.1 hu).2⟩

theorem exists_lookup?_ends {s : Subst} (hs : s.RingFree) (x : Var) : ∃ u, s.lookup? x = some u ∧ s.Ends u := by
  rw [lookup?_eq_walk? hs]
  exact exists_walk?_ends hs _

end Subst

/-! ### Main statement -/

/-- The substitutions that come up where a search begins with the empty one: every result of a unification or of a
goal from one of them. -/
inductive Subst.Reachable : Subst → Prop
  | empty : Reachable .empty
  | unified {s s' : Subst} {fuel : Nat} {u v : Term} {events : List Event} (hs : Reachable s)
      (h : unify? fuel u v s = some ⟨events, some s'⟩) : Reachable s'
  | found {s r : Subst} {history : History} {fuel : Nat} {g : Goal Literal} {st st' : Progress}
      {past past' : List Event} {results : List Subst} (hs : Reachable s)
      (h : g.search (Literal.search history fuel) s st past = some ((results, st'), past')) (hr : r ∈ results) :
      Reachable r

theorem keptByUnify_wellFormed : KeptByUnify Subst.WellFormed :=
  keptByUnify_of_canBind fun h hs => hs.extend h

/-- The empty substitution is well formed.  From a well-formed substitution, a unification that succeeds and every
result of every goal of a session are well formed, cyclic or not.  So in all substitutions of a run every walk and
every lookup comes to an end, at a variable without a binding or at a term that is no variable. -/
theorem wellFormed_of_run :
    Subst.empty.WellFormed ∧
    (∀ fuel u v s events s', s.WellFormed → unify? fuel u v s = some ⟨events, some s'⟩ → s'.WellFormed) ∧
    (∀ history fuel (g : Goal Literal) s st past results st' past', s.WellFormed →
      g.search (Literal.search history fuel) s st past = some ((results, st'), past') →
        ∀ r ∈ results, r.WellFormed) ∧
    (∀ s : Subst, s.Reachable → s.WellFormed ∧
      (∀ t, ∃ u, s.walk? t = some u ∧ s.Ends u) ∧ ∀ x, ∃ u, s.lookup? x = some u ∧ s.Ends u) := by
  have hunify : ∀ fuel u v s events s', s.WellFormed → unify? fuel u v s = some ⟨events, some s'⟩ →
      s'.WellFormed :=
    fun fuel u v s events s' hs h => keptByUnify_wellFormed h hs
  have hgoal : ∀ history fuel (g : Goal Literal) s st past results st' past', s.WellFormed →
      g.search (Literal.search history fuel) s st past = some ((results, st'), past') →
        ∀ r ∈ results, r.WellFormed :=
    fun history fuel g s st past results st' past' hs h =>
      g.search_keeps keptByUnify_wellFormed history fuel s hs st past results st' past' h
  have hreachable : ∀ s : Subst, s.Reachable → s.WellFormed := by
    intro s h
    induction h with
    | empty => exact Subst.wellFormed_empty
    | unified _ h ih => exact hunify _ _ _ _ _ _ ih h
    | found _ h hr ih => exact hgoal _ _ _ _ _ _ _ _ _ ih h _ hr
  refine ⟨Subst.wellFormed_empty, hunify, hgoal, fun s h => ⟨hreachable s h, fun t => ?_, fun x => ?_⟩⟩
  · exact Subst.exists_walk?_ends (hreachable s h).ringFree t
  · exact Subst.exists_lookup?_ends (hreachable s h).ringFree x

/-- The terms `x` and `(x)` unify, and the substitution in which `x` is bound to `(x)` is well formed. -/
theorem wellFormed_of_run_cyclic :
    Subst.WellFormed ⟨[(⟨0, "x"⟩, .pair 0 (.var ⟨0, "x"⟩) .nil)], 1⟩ := by
  obtain ⟨hempty, hunify, -⟩ := wellFormed_of_run
  exact hunify 1 (.var ⟨0, "x"⟩) (.pair 0 (.var ⟨0, "x"⟩) .nil) .empty _ _ hempty rfl

end RelLogic
