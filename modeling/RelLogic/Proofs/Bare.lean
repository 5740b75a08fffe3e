import RelLogic.Proofs.Binding

/-!
# Bare problems

The bare form of a term has zero for every serial number, so terms of one structure are one object there.  The same
is done to all terms of an equation, a substitution, an event and an outcome.  Walking does not look at serial
numbers (`Subst.walk?_bare`), and a move looks at them only to see that two terms are one object (`Move.of_bare`).
What is written down for an event shows none of them (`Event.render_bare`).
-/

namespace RelLogic

universe u

/-! ### Terms -/

namespace Term

@[simp] theorem bare_eq_var_iff {t : Term} {x : Var} : t.bare = .var x ↔ t = .var x := by
  cases t <;> simp [bare]

@[simp] theorem bare_bare (t : Term) : t.bare.bare = t.bare := by
  induction t with
  | pair i a d iha ihd => simp [bare, iha, ihd]
  | _ => simp [bare]

mutual

theorem write_bare (out : String) : (t : Term) → write out t.bare = write out t
  | .nil | .atom _ _ | .var _ => rfl
  | .pair _ a d => by
    rw [bare, write, write, write_bare (out ++ "(") a, writeRest_bare (write (out ++ "(") a) d]

theorem writeRest_bare (out : String) : (t : Term) → writeRest out t.bare = writeRest out t
  | .nil | .atom _ _ | .var _ => rfl
  | .pair _ a d => by
    rw [bare, writeRest, writeRest, write_bare (out ++ " ") a, writeRest_bare (write (out ++ " ") a) d]

end

theorem render_bare (t : Term) : t.bare.render = t.render :=
  write_bare "" t

end Term

theorem Model.eval_bare {D : Type u} (M : Model D) (ρ : Var → D) (t : Term) : M.eval ρ t.bare = M.eval ρ t := by
  induction t with
  | pair i a d iha ihd => rw [Term.bare, eval, eval, iha, ihd]
  | _ => rfl

/-! ### Events, equations and substitutions -/

def Event.bare : Event → Event
  | .created x => .created x
  | .extended x t => .extended x t.bare
  | .clash u v => .clash u.bare v.bare
  | .solutions n => .solutions n

theorem Event.render_extended (x : Var) (t : Term) :
    (Event.extended x t).render = "TRACE extend " ++ x.label ++ " := " ++ t.render := rfl

theorem Event.render_clash (u v : Term) :
    (Event.clash u v).render = "TRACE unify clash: " ++ u.render ++ " =/= " ++ v.render := rfl

theorem Event.render_bare (e : Event) : e.bare.render = e.render := by
  cases e with
  | extended x t =>
    show Event.render (.extended x t.bare) = _
    rw [render_extended, render_extended, Term.render_bare]
  | clash u v =>
    show Event.render (.clash u.bare v.bare) = _
    rw [render_clash, render_clash, Term.render_bare, Term.render_bare]
  | _ => rfl

def Equation.bare (e : Equation) : Equation :=
  ⟨e.lhs.bare, e.rhs.bare⟩

namespace Subst

/-- The substitution that binds the same variables in the same order, to the bare forms of their terms.  Whatever the
given substitution counts, this one counts these bindings. -/
def bare (s : Subst) : Subst :=
  ⟨s.bindings.map fun b => (b.1, b.2.bare), s.bindings.length⟩

theorem bare_extend (s : Subst) (x : Var) (t : Term) : (s.extend x t).bare = s.bare.extend x t.bare := rfl

theorem replaces_bare : Replaces id Term.bare where
  inj := Function.injective_id
  var _ := rfl
  other t ht := by cases t <;> exact ht

theorem get?_bare (s : Subst) (x : Var) : s.bare.get? x = (s.get? x).map Term.bare :=
  get?_map replaces_bare rfl x

/-- Walking does not look at serial numbers. -/
theorem walk?_bare (s : Subst) (t : Term) : s.bare.walk? t.bare = (s.walk? t).map Term.bare :=
  walk?_map replaces_bare rfl t

end Subst

/-! ### Moves and outcomes -/

theorem Move.of_self (t : Term) : Move.of t t = .agree := by
  simp [of]

def Move.bare : Move → Move
  | .agree => .agree
  | .bind x t => .bind x t.bare
  | .split cars cdrs => .split cars.bare cdrs.bare
  | .clash => .clash

/-- For bare terms the move is the same, but that terms of one structure agree at once. -/
theorem Move.of_bare (u v : Term) :
    Move.of u.bare v.bare = if u.bare = v.bare then .agree else (Move.of u v).bare := by
  by_cases h : u.bare = v.bare
  · rw [if_pos h, h, of_self]
  · have hne : u ≠ v := fun e => h (by rw [e])
    rw [if_neg h]
    cases u <;> cases v <;> simp only [Term.bare] at h <;> simp only [of, Term.bare, h, hne, if_false]
    case atom.atom i a j b => by_cases hab : a = b <;> simp [hab, bare]
    all_goals rfl

theorem Move.bare_eq_of_ne_agree {u v : Term} {m : Move} (h : Move.of u.bare v.bare = m) (hm : m ≠ .agree) :
    (Move.of u v).bare = m := by
  rw [of_bare] at h
  split at h
  · exact (hm h.symm).elim
  · exact h

/-- Two terms of one structure agree at once, or they are pairs of which the parts have one structure. -/
theorem Move.of_eq_agree_or_split {u v : Term} (h : u.bare = v.bare) :
    Move.of u v = .agree ∨ ∃ cars cdrs, Move.of u v = .split cars cdrs ∧ cars.bare.lhs = cars.bare.rhs ∧
      cdrs.bare.lhs = cdrs.bare.rhs := by
  by_cases huv : u = v
  · exact .inl (huv ▸ of_self u)
  · cases u <;> cases v <;> simp only [Term.bare, reduceCtorEq] at h
    case nil.nil => exact (huv rfl).elim
    case atom.atom i a j b =>
      obtain rfl : a = b := by simpa using h
      exact .inl (by simp [of])
    case var.var x y => exact (huv h).elim
    case pair.pair i a d j b e =>
      obtain ⟨hcar, hcdr⟩ : a.bare = b.bare ∧ d.bare = e.bare := by simpa using h
      exact .inr ⟨⟨a, b⟩, ⟨d, e⟩, by simp only [of, huv, if_false], hcar, hcdr⟩

/-- Bare terms agree only if they are one object. -/
theorem Move.eq_of_bare_agree {u v : Term} (h : Move.of u.bare v.bare = .agree) : u.bare = v.bare := by
  obtain heq | ⟨i, j, a, hu, hv⟩ := Move.of_eq_agree h
  · exact heq
  · rw [← Term.bare_bare u, ← Term.bare_bare v, hu, hv]
    rfl

def Outcome.bare (o : Outcome) : Outcome :=
  ⟨o.events.map Event.bare, o.store?.map Subst.bare⟩

end RelLogic
