import RelLogic.Unify

/-!
# Runs of the unifier

`Solves s pending o` says that the unifier, started on the substitution `s` with the equations `pending` still to
be met, comes to an end with the outcome `o`.  Its rules are the moves, and no number bounds them: it is what
`solve?` finds when it is given enough moves (`solves_iff`), and a run has only one outcome (`Solves.unique`).
Properties of all runs are proved by induction on `Solves`; the lemmas on `Move.of` say what each move tells about
the two walked terms.
-/

namespace RelLogic

/-! ### What a move tells about the terms -/

namespace Move

/-- Terms agree if they are one object, or atoms of one value. -/
theorem of_eq_agree {u v : Term} (h : Move.of u v = .agree) :
    u = v ∨ ∃ i j a, u = .atom i a ∧ v = .atom j a := by
  unfold Move.of at h
  split at h
  · exact .inl ‹_›
  · split at h <;> try contradiction
    split at h
    · subst_vars
      exact .inr ⟨_, _, _, rfl, rfl⟩
    · contradiction

/-- A bound variable is the left term, or the right one if the left is no variable. -/
theorem of_eq_bind {u v t : Term} {x : Var} (h : Move.of u v = .bind x t) :
    t ≠ .var x ∧ ((u = .var x ∧ t = v) ∨ (u.isVar = false ∧ v = .var x ∧ t = u)) := by
  unfold Move.of at h
  split at h
  · contradiction
  · rename_i hne
    split at h <;> try contradiction
    · obtain ⟨rfl, rfl⟩ := Move.bind.inj h
      exact ⟨fun e => hne e.symm, .inl ⟨rfl, rfl⟩⟩
    · obtain ⟨rfl, rfl⟩ := Move.bind.inj h
      refine ⟨hne, .inr ⟨?_, rfl, rfl⟩⟩
      cases u <;> simp_all [Term.isVar, Term.asVar?]
    · split at h <;> contradiction

/-- Only pairs are taken apart. -/
theorem of_eq_split {u v : Term} {cars cdrs : Equation} (h : Move.of u v = .split cars cdrs) :
    ∃ i j, u = .pair i cars.lhs cdrs.lhs ∧ v = .pair j cars.rhs cdrs.rhs := by
  unfold Move.of at h
  split at h
  · contradiction
  · split at h <;> try contradiction
    · obtain ⟨rfl, rfl⟩ := Move.split.inj h
      exact ⟨_, _, rfl, rfl⟩
    · split at h <;> contradiction

/-- Terms that clash are no variables, and at the root they are different: not both the empty list, not both
pairs, and no atoms of one value. -/
theorem of_eq_clash {u v : Term} (h : Move.of u v = .clash) :
    u.isVar = false ∧ v.isVar = false ∧ ¬(u.isNil = true ∧ v.isNil = true) ∧
      ¬(u.isPair = true ∧ v.isPair = true) ∧ ∀ i j a b, u = .atom i a → v = .atom j b → a ≠ b := by
  unfold Move.of at h
  split at h
  · contradiction
  · rename_i hne
    split at h <;> try contradiction
    · split at h
      · contradiction
      · rename_i hab
        refine ⟨rfl, rfl, by simp [Term.isNil], by simp [Term.isPair, Term.asPair?], ?_⟩
        rintro _ _ _ _ ⟨⟩ ⟨⟩
        exact hab
    · -- the last row of the match: no variable, neither two pairs nor two atoms, and not one object
      rename_i hpair hatom
      cases u <;> cases v
      case pair.pair => exact (hpair _ _ _ _ _ _ rfl rfl).elim
      case atom.atom => exact (hatom _ _ _ _ rfl rfl).elim
      all_goals simp_all [Term.isVar, Term.asVar?, Term.isNil, Term.isPair, Term.asPair?]

end Move

/-! ### Runs -/

/-- The unifier meets the equations from the substitution on, and ends with the outcome. -/
inductive Solves : Subst → List Equation → Outcome → Prop
  | done (s : Subst) : Solves s [] ⟨[], some s⟩
  | agree {s : Subst} {e : Equation} {rest : List Equation} {u v : Term} {o : Outcome}
      (hu : s.walk? e.lhs = some u) (hv : s.walk? e.rhs = some v) (hm : Move.of u v = .agree)
      (run : Solves s rest o) : Solves s (e :: rest) o
  | bind {s : Subst} {e : Equation} {rest : List Equation} {u v t : Term} {x : Var} {o : Outcome}
      (hu : s.walk? e.lhs = some u) (hv : s.walk? e.rhs = some v) (hm : Move.of u v = .bind x t)
      (run : Solves (s.extend x t) rest o) : Solves s (e :: rest) (o.after (.extended x t))
  | split {s : Subst} {e cars cdrs : Equation} {rest : List Equation} {u v : Term} {o : Outcome}
      (hu : s.walk? e.lhs = some u) (hv : s.walk? e.rhs = some v) (hm : Move.of u v = .split cars cdrs)
      (run : Solves s (cars :: cdrs :: rest) o) : Solves s (e :: rest) o
  | clash {s : Subst} {e : Equation} {rest : List Equation} {u v : Term}
      (hu : s.walk? e.lhs = some u) (hv : s.walk? e.rhs = some v) (hm : Move.of u v = .clash) :
      Solves s (e :: rest) ⟨[.clash u v], none⟩

theorem solves_of_solve? {n : Nat} {s : Subst} {pending : List Equation} {o : Outcome}
    (h : solve? n s pending = some o) : Solves s pending o := by
  induction n generalizing s pending o with
  | zero =>
    cases pending with
    | nil =>
      obtain rfl : _ = o := by simpa [solve?] using h
      exact .done s
    | cons e rest => simp [solve?] at h
  | succ n ih =>
    cases pending with
    | nil =>
      obtain rfl : _ = o := by simpa [solve?] using h
      exact .done s
    | cons e rest =>
      simp only [solve?] at h
      split at h
      · rename_i u v hu hv
        split at h
        · exact .agree hu hv ‹_› (ih h)
        · obtain ⟨o', ho', rfl⟩ := Option.map_eq_some_iff.1 h
          exact .bind hu hv ‹_› (ih ho')
        · exact .split hu hv ‹_› (ih h)
        · obtain rfl : _ = o := by simpa using h
          exact .clash hu hv ‹_›
      · contradiction

theorem Solves.exists_solve? {s : Subst} {pending : List Equation} {o : Outcome} (h : Solves s pending o) :
    ∃ n, solve? n s pending = some o := by
  induction h with
  | done s => exact ⟨0, by simp [solve?]⟩
  | agree hu hv hm _ ih =>
    obtain ⟨n, hn⟩ := ih
    exact ⟨n + 1, by simp [solve?, hu, hv, hm, hn]⟩
  | bind hu hv hm _ ih =>
    obtain ⟨n, hn⟩ := ih
    exact ⟨n + 1, by simp [solve?, hu, hv, hm, hn]⟩
  | split hu hv hm _ ih =>
    obtain ⟨n, hn⟩ := ih
    exact ⟨n + 1, by simp [solve?, hu, hv, hm, hn]⟩
  | clash hu hv hm => exact ⟨1, by simp [solve?, hu, hv, hm]⟩

/-- The outcomes of runs are the outcomes that `solve?` finds with enough moves. -/
theorem solves_iff {s : Subst} {pending : List Equation} {o : Outcome} :
    Solves s pending o ↔ ∃ n, solve? n s pending = some o :=
  ⟨Solves.exists_solve?, fun ⟨_, h⟩ => solves_of_solve? h⟩

/-- What a run does first is decided by the move for the two walked terms. -/
theorem solves_cons_iff_of_walked {s : Subst} {e : Equation} {rest : List Equation} {u v : Term} {o : Outcome}
    (hu : s.walk? e.lhs = some u) (hv : s.walk? e.rhs = some v) :
    Solves s (e :: rest) o ↔
      match Move.of u v with
      | .agree => Solves s rest o
      | .bind x t => ∃ o', Solves (s.extend x t) rest o' ∧ o = o'.after (.extended x t)
      | .split cars cdrs => Solves s (cars :: cdrs :: rest) o
      | .clash => o = ⟨[.clash u v], none⟩ := by
  have hwalked : ∀ {u' v'}, s.walk? e.lhs = some u' → s.walk? e.rhs = some v' → u' = u ∧ v' = v := by
    intro u' v' hu' hv'
    exact ⟨Option.some.inj (hu'.symm.trans hu), Option.some.inj (hv'.symm.trans hv)⟩
  constructor
  · intro h
    cases h with
    | agree hu' hv' hm run =>
      obtain ⟨rfl, rfl⟩ := hwalked hu' hv'
      rw [hm]
      exact run
    | bind hu' hv' hm run =>
      obtain ⟨rfl, rfl⟩ := hwalked hu' hv'
      rw [hm]
      exact ⟨_, run, rfl⟩
    | split hu' hv' hm run =>
      obtain ⟨rfl, rfl⟩ := hwalked hu' hv'
      rw [hm]
      exact run
    | clash hu' hv' hm =>
      obtain ⟨rfl, rfl⟩ := hwalked hu' hv'
      rw [hm]
  · intro h
    split at h
    · exact .agree hu hv ‹_› h
    · obtain ⟨o', run, rfl⟩ := h
      exact .bind hu hv ‹_› run
    · exact .split hu hv ‹_› h
    · obtain rfl := h
      exact .clash hu hv ‹_›

/-- More moves never change an outcome. -/
theorem solve?_mono {n m : Nat} {s : Subst} {pending : List Equation} {o : Outcome} (hnm : n ≤ m)
    (h : solve? n s pending = some o) : solve? m s pending = some o := by
  induction n generalizing m s pending o with
  | zero =>
    cases pending with
    | nil => simpa [solve?] using h
    | cons e rest => simp [solve?] at h
  | succ n ih =>
    obtain ⟨k, rfl⟩ : ∃ k, m = k + 1 := ⟨m - 1, by omega⟩
    cases pending with
    | nil => simpa [solve?] using h
    | cons e rest =>
      simp only [solve?] at h ⊢
      split at h
      · split at h
        · exact ih (by omega) h
        · obtain ⟨o', ho', rfl⟩ := Option.map_eq_some_iff.1 h
          rw [ih (by omega) ho']
          rfl
        · exact ih (by omega) h
        · exact h
      · contradiction

/-- A run has only one outcome. -/
theorem Solves.unique {s : Subst} {pending : List Equation} {o o' : Outcome} (h : Solves s pending o)
    (h' : Solves s pending o') : o = o' := by
  obtain ⟨n, hn⟩ := h.exists_solve?
  obtain ⟨m, hm⟩ := h'.exists_solve?
  have e := solve?_mono (Nat.le_max_left n m) hn
  rw [solve?_mono (Nat.le_max_right n m) hm] at e
  exact (Option.some.inj e).symm

end RelLogic
