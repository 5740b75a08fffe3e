import Mathlib.Data.List.Basic
import Mathlib.Data.Prod.Basic
import RelLogic.Proofs.SessionShift

/-!
# Variables are identities

A variable counts for nothing but being the same as another or not.  So renaming different variables to different
ones changes a run by nothing but this renaming (`run_equivariant`).  Two renamings show what this means.  One raises
all numbers: a session does not depend on the number of its first variable.  The other puts the number of a variable
before its label (`Var.numbered`), so that no two variables have one label: variables with one label are never mixed
up, for a problem is solved like the one in which all labels differ.
-/

namespace RelLogic

/-- The variable with its number written before its label. -/
def Var.numbered (x : Var) : Var :=
  { x with label := toString x.id ++ "#" ++ x.label }

/-- The digits of a number end where the sign after them stands. -/
private theorem takeWhile_numbered (n : Nat) (rest : List Char) :
    (Nat.toDigits 10 n ++ '#' :: rest).takeWhile (· != '#') = Nat.toDigits 10 n := by
  have hdigits : ∀ c ∈ Nat.toDigits 10 n, (c != '#') = true := by
    intro c hc
    have hdigit := Nat.isDigit_of_mem_toDigits (by decide) (by decide) hc
    rw [bne_iff_ne]
    rintro rfl
    exact absurd hdigit (by decide)
  rw [List.takeWhile_append_of_pos hdigits]
  simp

/-- Different variables have different labels. -/
theorem Var.eq_of_label_numbered {x y : Var} (h : x.numbered.label = y.numbered.label) : x = y := by
  obtain ⟨i, l⟩ := x
  obtain ⟨j, m⟩ := y
  have hchars : Nat.toDigits 10 i ++ '#' :: l.toList = Nat.toDigits 10 j ++ '#' :: m.toList := by
    simpa [numbered] using congrArg String.toList h
  have hdigits : Nat.toDigits 10 i = Nat.toDigits 10 j := by
    rw [← takeWhile_numbered i l.toList, hchars, takeWhile_numbered]
  have hnumber : i = j := by
    simpa using congrArg (fun digits => Nat.ofDigitChars 10 digits 0) hdigits
  have hlabel : l = m := by
    rw [hdigits] at hchars
    exact String.toList_injective (List.cons.inj (List.append_cancel_left hchars)).2
  rw [hnumber, hlabel]

theorem Var.numbered_injective : Function.Injective numbered :=
  fun _ _ h => eq_of_label_numbered (congrArg label h)

/-! ### Renamed runs as equations -/

variable {p : Var → Var}

theorem Subst.resolve?_rename_eq (hp : Function.Injective p) (s : Subst) (t : Term) (σ : Supply) :
    (s.rename p).resolve? (t.rename p) σ = (s.resolve? t σ).map (Prod.map (Term.rename p) id) :=
  -- the supplies are no variables apart
  resolve?_rename (k := 0) hp t σ

theorem Goal.solutions_rename_eq (hp : Function.Injective p) (fuel : Nat) (g : Goal Equation) (s : Subst)
    (past : List Event) :
    (g.map (Equation.rename p)).solutions fuel (s.rename p) (past.map (Event.rename p)) =
      (g.solutions fuel s past).map (Prod.map (List.map (Subst.rename p)) (List.map (Event.rename p))) :=
  solutions_rename hp fuel g s past

/-- If all variables can be told apart by their labels, unifying and searching give what they give otherwise, but for
the labels. -/
theorem exists_labels_differ :
    ∃ q q' : Var → Var, (∀ x y, (q x).label = (q y).label → x = y) ∧
      (∀ fuel u v s, unify? fuel u v s =
        (unify? fuel (u.rename q) (v.rename q) (s.rename q)).map (Outcome.rename q')) ∧
      ∀ fuel (g : Goal Equation) s past, g.solutions fuel s past =
        ((g.map (Equation.rename q)).solutions fuel (s.rename q) (past.map (Event.rename q))).map
          (Prod.map (List.map (Subst.rename q')) (List.map (Event.rename q'))) := by
  have : Nonempty Var := ⟨⟨0, ""⟩⟩
  obtain ⟨q, hq⟩ := Var.numbered_injective.hasLeftInverse
  refine ⟨Var.numbered, q, fun x y => Var.eq_of_label_numbered, fun fuel u v s => ?_, fun fuel g s past => ?_⟩
  · rw [unify?_rename Var.numbered_injective, Option.map_map, (Outcome.rename_leftInverse hq).comp_eq_id,
      Option.map_id, id]
  · have hresults := Function.LeftInverse.prodMap (Subst.rename_leftInverse hq).list_map
      (Event.rename_leftInverse hq).list_map
    rw [Goal.solutions_rename_eq Var.numbered_injective, Option.map_map, hresults.comp_eq_id, Option.map_id, id]

/-! ### Main statement -/

/-- Different variables are renamed to different ones.  Then unifying ends as before, within as many moves, with the
renamed events and the renamed bindings in the same order; resolving gives the renamed term; and a goal over terms is
refused with the renamed report or has the renamed results in the same order.  So a session in which the first variable
has the number `n` gives the replies that it gives from zero on, with all numbers raised by `n`, and it makes no
difference to a problem if the labels of all its variables differ. -/
theorem run_equivariant (hp : Function.Injective p) :
    (∀ fuel u v s, unify? fuel (u.rename p) (v.rename p) (s.rename p) =
      (unify? fuel u v s).map (Outcome.rename p)) ∧
    (∀ s t σ, (Subst.rename p s).resolve? (t.rename p) σ = (s.resolve? t σ).map (Prod.map (Term.rename p) id)) ∧
    (∀ g : Goal Clause,
      (∀ e, g.expand Clause.goal = .error e → (g.map (Clause.rename p)).expand Clause.goal = .error (e.rename p)) ∧
      ∀ g', g.expand Clause.goal = .ok g' →
        ∃ h, (g.map (Clause.rename p)).expand Clause.goal = .ok h ∧
          ∀ fuel s past, h.solutions fuel (s.rename p) (past.map (Event.rename p)) =
            (g'.solutions fuel s past).map (Prod.map (List.map (Subst.rename p)) (List.map (Event.rename p)))) ∧
    (∀ n fuel program relations vars,
      Session.respondAll fuel program (.startAt n relations vars) =
        (Session.respondAll fuel program (.start relations vars)).map
          (Prod.map (List.map (Reply.rename (Var.shift n))) (Session.shift n))) ∧
    ∃ q q' : Var → Var, (∀ x y, (q x).label = (q y).label → x = y) ∧
      (∀ fuel u v s, unify? fuel u v s =
        (unify? fuel (u.rename q) (v.rename q) (s.rename q)).map (Outcome.rename q')) ∧
      ∀ fuel (g : Goal Equation) s past, g.solutions fuel s past =
        ((g.map (Equation.rename q)).solutions fuel (s.rename q) (past.map (Event.rename q))).map
          (Prod.map (List.map (Subst.rename q')) (List.map (Event.rename q'))) := by
  refine ⟨unify?_rename hp, fun s t σ => s.resolve?_rename_eq hp t σ, fun g => ⟨fun e he => ?_, fun g' hg' => ?_⟩,
    fun n fuel program relations vars => ?_, exists_labels_differ⟩
  · rw [Goal.expand_rename, he, mapBoth]
  · refine ⟨g'.map (Equation.rename p), ?_, fun fuel s past => Goal.solutions_rename_eq hp fuel g' s past⟩
    rw [Goal.expand_rename, hg', mapBoth]
  · rw [Session.startAt_eq_shift, Session.respondAll_shift]

/-- Two variables with the label `x`, of which the first is bound to `true`, and what becomes of it when their numbers
are written before their labels. -/
theorem run_equivariant_numbered :
    Function.Injective Var.numbered ∧
      unify? 1 (.var ⟨1, "1#x"⟩) (.var ⟨0, "0#x"⟩) ⟨[(⟨0, "0#x"⟩, .atom 0 (.bool true))], 1⟩ =
        some ⟨[.extended ⟨1, "1#x"⟩ (.atom 0 (.bool true))],
          some ⟨[(⟨1, "1#x"⟩, .atom 0 (.bool true)), (⟨0, "0#x"⟩, .atom 0 (.bool true))], 2⟩⟩ := by
  refine ⟨Var.numbered_injective, ?_⟩
  have hrun := (run_equivariant Var.numbered_injective).1 1 (.var ⟨1, "x"⟩) (.var ⟨0, "x"⟩)
    ⟨[(⟨0, "x"⟩, .atom 0 (.bool true))], 1⟩
  exact hrun

end RelLogic
