import RelLogic.Term.Printer

/-!
# List notation

A pair is written in list notation: the items along its cdrs with single blanks between them, and the end of the cdrs
after a dot unless it is the empty list (`Term.openRender_eq`).  Formatting by the rules for terms and pairs with an
alternate flag, which only leaves out the parentheses of a pair and goes on from a pair to the next one along the cdrs,
gives the same text (`Term.format_eq`).
-/

namespace RelLogic

namespace Term

/-! ### List notation -/

/-- What is written for the end of the cdrs of a pair. -/
def ending : Term → String
  | .nil => ""
  | t => " . " ++ t.render

theorem openRender_eq_append (a d : Term) : openRender a d = a.render ++ writeRest "" d := by
  rw [openRender, writeRest_eq]
  rfl

theorem render_pair (i : Nat) (a d : Term) : (pair i a d).render = "(" ++ openRender a d ++ ")" := by
  rw [render, write, write_eq, writeRest_eq, openRender_eq_append]
  simp [String.append_assoc]

theorem writeRest_pair (i : Nat) (a d : Term) : writeRest "" (pair i a d) = " " ++ openRender a d := by
  rw [writeRest, write_eq, writeRest_eq, openRender_eq_append]
  simp [String.append_assoc]

theorem openRender_of_leaf {d : Term} (hleaf : d.isPair = false) (a : Term) :
    openRender a d = a.render ++ d.ending := by
  rw [openRender_eq_append]
  cases d with
  | pair => cases hleaf
  | _ => simp [writeRest, ending, render, write]

theorem openRender_pair (i : Nat) (a b e : Term) : openRender a (pair i b e) = a.render ++ " " ++ openRender b e := by
  rw [openRender_eq_append, writeRest_pair, String.append_assoc]

/-- The items along the cdrs with single blanks between them, and then the end of the cdrs. -/
theorem openRender_eq (a d : Term) :
    openRender a d = " ".intercalate ((a :: d.spine.1).map render) ++ d.spine.2.ending := by
  induction d generalizing a with
  | pair i b e _ ih =>
    rw [openRender_pair, ih, spine_pair, List.map_cons, List.map_cons, List.map_cons, String.intercalate_cons_cons]
    simp [String.append_assoc]
  | _ =>
    rw [openRender_of_leaf rfl]
    simp [spine, spineAfter]

/-! ### Formatting with a flag -/

/-- Puts parentheses around a text unless the alternate way is asked for. -/
def parens (alternate : Bool) (inner : String) : String :=
  (if alternate then "" else "(") ++ inner ++ (if alternate then "" else ")")

mutual

/-- The text of a term.  The flag asks for the alternate way to write it, and a term asks for no part in that way. -/
def format (_ : Bool) : Term → String
  | .nil => "()"
  | .atom _ a => a.render
  | .var x => x.label
  | .pair _ a d => formatPair false a d
termination_by t => t.nodes
decreasing_by
  simp only [nodes]
  omega

/-- The text of a pair, in the alternate way without the parentheses around it.  A pair asks for the alternate way where
its cdr is a pair, and nowhere else. -/
def formatPair (alternate : Bool) (car : Term) : Term → String
  | .nil => parens alternate (format false car)
  | .pair _ a d => parens alternate (format false car ++ " " ++ formatPair true a d)
  | other => parens alternate (format false car ++ " . " ++ format false other)
termination_by cdr => car.nodes + cdr.nodes
decreasing_by
  · exact Nat.lt_add_of_pos_right (nodes_pos _)
  · exact Nat.lt_add_of_pos_right (nodes_pos _)
  · have := nodes_pos car
    simp only [nodes]
    omega
  · exact Nat.lt_add_of_pos_right (nodes_pos _)
  · exact Nat.lt_add_of_pos_left (nodes_pos car)

end

private theorem format_of_leaf {t : Term} (hleaf : t.isPair = false) (alternate : Bool) :
    format alternate t = t.render := by
  cases t with
  | pair => cases hleaf
  | _ => simp [format, render, write]

private theorem formatPair_of_leaf {cdr : Term} (hleaf : cdr.isPair = false) (alternate : Bool) (car : Term) :
    formatPair alternate car cdr = parens alternate (format false car ++ cdr.ending) := by
  cases cdr with
  | pair => cases hleaf
  | nil => rw [formatPair, ending, String.append_empty]
  | atom i a =>
    rw [formatPair, format_of_leaf (rfl : (atom i a).isPair = false), ending, String.append_assoc] <;> simp
  | var x => rw [formatPair, format_of_leaf (rfl : (var x).isPair = false), ending, String.append_assoc] <;> simp

/-- Formatting a pair comes to the open form of the pair, if formatting its car comes to the written form of the car. -/
private theorem format_eq_and (t : Term) :
    (∀ alternate, format alternate t = t.render) ∧
      ∀ alternate car, format false car = car.render →
        formatPair alternate car t = parens alternate (openRender car t) := by
  have of_leaf : ∀ {t : Term}, t.isPair = false → (∀ alternate, format alternate t = t.render) ∧
      ∀ alternate car, format false car = car.render →
        formatPair alternate car t = parens alternate (openRender car t) := fun hleaf =>
    ⟨format_of_leaf hleaf, fun alternate car hcar => by
      rw [formatPair_of_leaf hleaf, hcar, openRender_of_leaf hleaf]⟩
  induction t with
  | pair i a d iha ihd =>
    refine ⟨fun _ => ?_, fun alternate car hcar => ?_⟩
    · rw [format, ihd.2 false a (iha.1 false), render_pair]
      rfl
    · rw [formatPair, hcar, ihd.2 true a (iha.1 false), openRender_pair]
      simp [parens]
  | _ => exact of_leaf rfl

theorem format_eq (alternate : Bool) (t : Term) : format alternate t = t.render :=
  (format_eq_and t).1 alternate

theorem formatPair_eq (alternate : Bool) (car cdr : Term) :
    formatPair alternate car cdr = parens alternate (openRender car cdr) :=
  (format_eq_and cdr).2 alternate car (format_eq false car)

end Term

end RelLogic
