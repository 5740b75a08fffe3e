import RelLogic.Proofs.Growth
import RelLogic.Proofs.Termination

/-!
# What a unification records

A run of the unifier goes from stage to stage until no equation is left or two walked terms clash.  It records each
binding when it makes it, and the clash if it ends with one (`Solves.exists_last`).  So the record of a run that
succeeds is the list of the new bindings, the oldest first, and nothing else.

A valuation that fits one stage fits the next one (`Stage.Next.fits`).  This takes no more of a model than that the
parts of a pair can be told from it.  So the two terms of a recorded clash have one value under every valuation that
satisfies the substitution at the beginning and gives the two unified terms one value: the clash is the fault of the
terms and of no binding that the run has chosen.
-/

namespace RelLogic

universe w

/-- The records of bindings, of which the latest is given first: the oldest is recorded first. -/
def Event.ofBindings (new : List (Var × Term)) : List Event :=
  new.reverse.map fun b => .extended b.1 b.2

theorem Event.ofBindings_append_singleton (new : List (Var × Term)) (x : Var) (t : Term) :
    ofBindings (new ++ [(x, t)]) = .extended x t :: ofBindings new := by
  simp [ofBindings]

/-- Bindings that are new after another one are new together with it. -/
theorem Subst.NewTo.of_extend {s : Subst} {x : Var} {t : Term} {new : List (Var × Term)}
    (h : (s.extend x t).NewTo new) (hx : s.get? x = none) : s.NewTo (new ++ [(x, t)]) := by
  have hother : ∀ b ∈ new, b.1 ≠ x ∧ s.get? b.1 = none := by
    intro b hb
    have hfree := h.unbound b hb
    rw [get?_extend] at hfree
    split at hfree
    · contradiction
    · exact ⟨‹_›, hfree⟩
  constructor
  · intro b hb
    rcases List.mem_append.1 hb with hb | hb
    · exact (hother b hb).2
    · obtain rfl := List.mem_singleton.1 hb
      exact hx
  · rw [List.map_append, List.nodup_append]
    refine ⟨h.nodup, List.nodup_singleton x, ?_⟩
    rintro y hy z hz rfl
    obtain rfl := List.mem_singleton.1 hz
    obtain ⟨b, hb, hbx⟩ := List.mem_map.1 hy
    exact (hother b hb).1 hbx

/-! ### The last stage of a run -/

/-- Two terms that no bindings make equal: neither is a variable, and they differ at the root. -/
structure Conflict (a b : Term) : Prop where
  left : a.isVar = false
  right : b.isVar = false
  nils : ¬(a.isNil = true ∧ b.isNil = true)
  pairs : ¬(a.isPair = true ∧ b.isPair = true)
  atoms : ∀ i j p q, a = .atom i p → b = .atom j q → p ≠ q

theorem conflict_of_clash {a b : Term} (h : Move.of a b = .clash) : Conflict a b := by
  obtain ⟨hleft, hright, hnils, hpairs, hatoms⟩ := Move.of_eq_clash h
  exact ⟨hleft, hright, hnils, hpairs, hatoms⟩

namespace Stage

/-- At this stage the sides of the first pending equation have been walked to the two terms, and these clash. -/
structure ClashesAt (c : Stage) (a b : Term) : Prop where
  walked : ∃ e rest, c.pending = e :: rest ∧ c.store.walk? e.lhs = some a ∧ c.store.walk? e.rhs = some b
  move : Move.of a b = .clash

/-- What was recorded up to the last stage, and what the run has come to there. -/
inductive Last (c : Stage) (records : List Event) : Outcome → Prop
  | met (h : c.pending = []) : Last c records ⟨records, some c.store⟩
  | clash {a b : Term} (h : c.ClashesAt a b) : Last c records ⟨records ++ [.clash a b], none⟩

theorem Last.after {c : Stage} {records : List Event} {o : Outcome} (h : c.Last records o) (e : Event) :
    c.Last (e :: records) (o.after e) := by
  cases h with
  | met h => exact .met h
  | clash h => exact .clash h

end Stage

/-- A run passes through stages to its last one.  It has recorded the bindings that were made on the way. -/
theorem Solves.exists_last {s : Subst} {pending : List Equation} {o : Outcome} (h : Solves s pending o) :
    ∃ new c, s.NewTo new ∧ Stage.Leads ⟨s, pending⟩ c ∧ c.store = s.extendAll new ∧
      c.Last (Event.ofBindings new) o := by
  induction h with
  | done s => exact ⟨[], ⟨s, []⟩, s.newTo_nil, .refl, rfl, .met rfl⟩
  | agree hu hv hm _ ih =>
    obtain ⟨new, c, hnew, hlead, hstore, hlast⟩ := ih
    exact ⟨new, c, hnew, hlead.head (.agree hu hv hm), hstore, hlast⟩
  | @bind s e rest u v t x o hu hv hm _ ih =>
    -- the binding made first is the oldest of the new ones, and its record comes before all others
    obtain ⟨new, c, hnew, hlead, hstore, hlast⟩ := ih
    refine ⟨new ++ [(x, t)], c, hnew.of_extend (get?_of_bind hu hv hm), hlead.head (.bind hu hv hm), ?_, ?_⟩
    · rw [hstore, Subst.extendAll_extend]
    · rw [Event.ofBindings_append_singleton]
      exact hlast.after _
  | split hu hv hm _ ih =>
    obtain ⟨new, c, hnew, hlead, hstore, hlast⟩ := ih
    exact ⟨new, c, hnew, hlead.head (.split hu hv hm), hstore, hlast⟩
  | @clash s e rest u v hu hv hm =>
    exact ⟨[], ⟨s, e :: rest⟩, s.newTo_nil, .refl, rfl, .clash ⟨⟨e, rest, rfl, hu, hv⟩, hm⟩⟩

/-! ### What the stages ask of a valuation -/

namespace Stage

variable {D : Type w} {M : Model D} {ρ : Var → D} {c c' : Stage}

/-- The valuation satisfies the substitution of the stage and solves the equations that are still to be met. -/
structure Fits (M : Model D) (ρ : Var → D) (c : Stage) : Prop where
  store : M.Satisfies ρ c.store
  pending : M.EquatesAll ρ c.pending

/-- No move asks for more than was asked for before. -/
theorem Next.fits (h : c.Next c') (hc : c.Fits M ρ) : c'.Fits M ρ := by
  obtain ⟨hs, hpending⟩ := hc
  cases h with
  | agree hu hv hm => exact ⟨hs, (Model.equatesAll_cons.1 hpending).2⟩
  | bind hu hv hm =>
    obtain ⟨he, hrest⟩ := Model.equatesAll_cons.1 hpending
    rw [Model.equates_iff_walked hs hu hv, Model.eval_eq_iff_of_bind hm] at he
    exact ⟨(Model.satisfies_extend (get?_of_bind hu hv hm) _).2 ⟨hs, he⟩, hrest⟩
  | split hu hv hm =>
    obtain ⟨he, hrest⟩ := Model.equatesAll_cons.1 hpending
    rw [Model.equates_iff_walked hs hu hv, Model.eval_eq_iff_of_split hm] at he
    exact ⟨hs, Model.equatesAll_cons.2 ⟨he.1, Model.equatesAll_cons.2 ⟨he.2, hrest⟩⟩⟩

theorem Leads.fits (h : c.Leads c') (hc : c.Fits M ρ) : c'.Fits M ρ := by
  induction h with
  | refl => exact hc
  | tail _ hnext ih => exact hnext.fits ih

/-- Where a valuation fits, terms that clash have one value. -/
theorem ClashesAt.eval_eq {a b : Term} (h : c.ClashesAt a b) (hc : c.Fits M ρ) : M.eval ρ a = M.eval ρ b := by
  obtain ⟨e, rest, hpending, ha, hb⟩ := h.walked
  have he : M.Equates ρ e := hc.pending e (by simp [hpending])
  exact (Model.equates_iff_walked hc.store ha hb).1 he

end Stage

/-! ### Main statement -/

/-- A unification that succeeds records one line for each binding of the result that is new, the oldest first, and
nothing else.  A unification that fails records the bindings that it has made, and then one clash.  The two terms of
the clash are those to which the sides of an equation have just been walked in the substitution of that moment; they
are no variables and differ at the root; and in every model they have one value wherever the given substitution is
satisfied and the two given terms have one value. -/
theorem unify?_records {fuel : Nat} {u v : Term} {s : Subst} {o : Outcome} (h : unify? fuel u v s = some o) :
    (∀ s', o.store? = some s' →
      ∃ new, s' = s.extendAll new ∧ s.NewTo new ∧ o.events = Event.ofBindings new ∧
        o.events.map Event.render = new.reverse.map fun b => "TRACE extend " ++ b.1.label ++ " := " ++ b.2.render) ∧
    (o.store? = none →
      ∃ new c a b, Stage.Leads ⟨s, [⟨u, v⟩]⟩ c ∧ c.store = s.extendAll new ∧ s.NewTo new ∧ c.ClashesAt a b ∧
        o.events = Event.ofBindings new ++ [.clash a b] ∧ Conflict a b ∧
        ∀ (D : Type w) (M : Model D) (ρ : Var → D), M.Satisfies ρ s → M.eval ρ u = M.eval ρ v →
          M.eval ρ a = M.eval ρ b) := by
  obtain ⟨new, c, hnew, hlead, hstore, hlast⟩ := (solves_of_solve? h).exists_last
  cases hlast with
  | met =>
    refine ⟨fun s' hs' => ⟨new, ?_, hnew, rfl, ?_⟩, nofun⟩
    · rw [← hstore]
      exact (Option.some.inj hs').symm
    · simp only [Event.ofBindings, List.map_map]
      exact List.map_congr_left fun b _ => Event.render_extended b.1 b.2
  | @clash a b hclash =>
    refine ⟨nofun, fun _ => ⟨new, c, a, b, hlead, hstore, hnew, hclash, rfl, conflict_of_clash hclash.move, ?_⟩⟩
    intro D M ρ hs huv
    have hstart : Stage.Fits M ρ ⟨s, [⟨u, v⟩]⟩ := ⟨hs, by simpa [Model.Equates] using huv⟩
    exact hclash.eval_eq (hlead.fits hstart)

/-- The pairs `(x . x)` and `(true . false)`: the cars bind `x` to `true`, and with that the cdrs clash.  A model in
which the pairs have one value has one value for `true` and `false`. -/
theorem unify?_records_clash :
    unify? 3 (.pair 0 (.var ⟨0, "x"⟩) (.var ⟨0, "x"⟩)) (.pair 1 (.atom 2 (.bool true)) (.atom 3 (.bool false))) .empty =
        some ⟨[.extended ⟨0, "x"⟩ (.atom 2 (.bool true)), .clash (.atom 2 (.bool true)) (.atom 3 (.bool false))],
          none⟩ ∧
      ∃ new a b, [Event.extended ⟨0, "x"⟩ (.atom 2 (.bool true)),
            .clash (.atom 2 (.bool true)) (.atom 3 (.bool false))] = Event.ofBindings new ++ [.clash a b] ∧
        Conflict a b ∧
        ∀ (M : Model Nat) (ρ : Var → Nat), M.Satisfies ρ .empty →
          M.eval ρ (.pair 0 (.var ⟨0, "x"⟩) (.var ⟨0, "x"⟩)) =
            M.eval ρ (.pair 1 (.atom 2 (.bool true)) (.atom 3 (.bool false))) →
          M.eval ρ a = M.eval ρ b := by
  have h : unify? 3 (.pair 0 (.var ⟨0, "x"⟩) (.var ⟨0, "x"⟩))
      (.pair 1 (.atom 2 (.bool true)) (.atom 3 (.bool false))) .empty = some ⟨_, none⟩ := rfl
  obtain ⟨new, c, a, b, -, -, -, -, hevents, hconflict, hforced⟩ := (unify?_records h).2 rfl
  exact ⟨h, new, a, b, hevents, hconflict, hforced Nat⟩

end RelLogic
