import RelLogic.Proofs.Chains
import RelLogic.Proofs.ListEquations
import RelLogic.Proofs.SameTree

/-!
# Proper lists

Along the cdrs every term comes to one end that is no pair (`Term.EndsIn`), and a proper list is a term that ends in the
empty list.  Making a list, reading the items of a list and the relations on lists all go by this notion: a term can be
read if it is the same tree as some list that was made (`Term.exists_same_items_iff`), and of any other term the end
is reported, be it an atom or a variable, as it stands (`Term.items?_eq_error_iff`).

The goal that a term is an item of a list takes the items in a loop.  The specification takes the list apart instead,
one pair at a time (`Goal.memberRec`); both make the same search (`Goal.search_member`).
-/

namespace RelLogic

variable {t l found : Term} {xs ys : List Term} {e : ShapeError}

/-! ### Ends of terms -/

namespace Term

/-- The cdrs of the first term end in the second one, which is no pair. -/
inductive EndsIn : Term → Term → Prop
  | here {t : Term} (h : t.isPair = false) : EndsIn t t
  | cdr (i : Nat) (a : Term) {d found : Term} (h : EndsIn d found) : EndsIn (.pair i a d) found

/-- The cdrs of the term end in the empty list. -/
def Proper (t : Term) : Prop :=
  t.EndsIn .nil

theorem endsIn_pair_iff {i : Nat} {a d : Term} : (pair i a d).EndsIn found ↔ d.EndsIn found := by
  constructor
  · intro h
    cases h with
    | here h => contradiction
    | cdr _ _ h => exact h
  · exact .cdr i a

theorem endsIn_iff_spine : t.EndsIn found ↔ t.spine.2 = found := by
  induction t with
  | pair i a d _ ihd => rw [endsIn_pair_iff, ihd, spine_pair]
  | _ =>
    constructor
    · rintro ⟨-⟩
      rfl
    · rintro rfl
      exact .here rfl

theorem existsUnique_endsIn (t : Term) : ∃! found, t.EndsIn found :=
  ⟨t.spine.2, endsIn_iff_spine.2 rfl, fun _ h => (endsIn_iff_spine.1 h).symm⟩

theorem EndsIn.isPair_eq_false (h : t.EndsIn found) : found.isPair = false := by
  induction h with
  | here h => exact h
  | cdr _ _ _ ih => exact ih

/-- An end other than the empty list is an atom or a variable. -/
theorem EndsIn.atom_or_var (h : t.EndsIn found) (hnil : found ≠ .nil) :
    (∃ i a, found = .atom i a) ∨ ∃ x, found = .var x := by
  have hpair := h.isPair_eq_false
  cases found with
  | nil => exact (hnil rfl).elim
  | atom i a => exact .inl ⟨i, a, rfl⟩
  | var x => exact .inr ⟨x, rfl⟩
  | pair i a d => contradiction

/-! ### Reading a list -/

theorem exists_items?_iff : (∃ xs, t.items? = .ok xs) ↔ t.Proper := by
  rw [Proper, endsIn_iff_spine]
  rcases hs : t.spine with ⟨xs, rest⟩
  cases rest <;> simp [items?, hs]

theorem items?_eq_error_iff :
    t.items? = .error e ↔ ∃ found, t.EndsIn found ∧ found ≠ .nil ∧ e = .improperList found := by
  simp only [endsIn_iff_spine, exists_eq_left']
  rcases hs : t.spine with ⟨xs, rest⟩
  cases rest <;> simp [items?, hs, eq_comm]

/-- The two lists have the same trees as their items, in the same order. -/
def SameItems (xs ys : List Term) : Prop :=
  List.Forall₂ (fun a b => a.same b = true) xs ys

/-- A term that is the same tree as a proper list is one, of the same items. -/
theorem exists_items?_of_sameTree (h : t.SameTree l) (hl : l.items? = .ok xs) :
    ∃ ys, t.items? = .ok ys ∧ SameItems ys xs := by
  induction h generalizing xs with
  | nil =>
    obtain rfl := Except.ok.inj hl
    exact ⟨[], rfl, .nil⟩
  | @pair i j a b d e hcar _ _ ihd =>
    rw [items?_pair] at hl
    cases he : e.items? with
    | error _ =>
      rw [he] at hl
      contradiction
    | ok xs' =>
      rw [he] at hl
      obtain rfl := Except.ok.inj hl
      obtain ⟨ys, hys, hsame⟩ := ihd he
      exact ⟨a :: ys, by rw [items?_pair, hys]; rfl, .cons (same_iff_sameTree.2 hcar) hsame⟩
  | _ => contradiction

theorem sameTree_of_items? (ht : t.items? = .ok ys) (hl : l.items? = .ok xs) (h : SameItems ys xs) : t.SameTree l := by
  induction h generalizing t l with
  | nil =>
    obtain rfl := items?_eq_nil_iff.1 ht
    obtain rfl := items?_eq_nil_iff.1 hl
    exact .nil
  | cons hab _ ih =>
    obtain ⟨i, d, rfl, hd⟩ := items?_eq_cons_iff.1 ht
    obtain ⟨j, d', rfl, hd'⟩ := items?_eq_cons_iff.1 hl
    exact .pair (same_iff_sameTree.1 hab) (ih hd hd')

/-- The items of a term are those of a list if and only if the term is the same tree as the list made of them. -/
theorem exists_same_items_iff (xs : List Term) (σ : Supply) :
    (∃ ys, t.items? = .ok ys ∧ SameItems ys xs) ↔ t.same (ofList xs σ).1 = true := by
  rw [same_iff_sameTree]
  constructor
  · rintro ⟨ys, hys, hsame⟩
    exact sameTree_of_items? hys (items?_ofList xs σ) hsame
  · exact fun h => exists_items?_of_sameTree h (items?_ofList xs σ)

theorem proper_iff_same_ofList : t.Proper ↔ ∃ xs σ, t.same (ofList xs σ).1 = true := by
  simp only [← exists_items?_iff, ← exists_same_items_iff]
  constructor
  · rintro ⟨ys, hys⟩
    exact ⟨ys, {}, ys, hys, List.forall₂_same.2 fun _ _ => equivalence_same.refl _⟩
  · rintro ⟨_, _, ys, hys, -⟩
    exact ⟨ys, hys⟩

end Term

/-! ### Relations on lists -/

namespace Goal

/-- The goal that a term equals some item of a list, made along the list: the empty list fails, and a pair has the term
as its car, or else its cdr does. -/
def memberRec (t : Term) : Term → Except ShapeError (Goal Equation)
  | .nil => .ok .fail
  | .pair _ a d => do
    let rest ← memberRec t d
    return .disj (.prim ⟨t, a⟩) rest
  | found => .error (.improperList found)

theorem member_eq (t l : Term) :
    member t l = l.items?.map fun items => .disjAll (items.map fun item => .prim ⟨t, item⟩) := by
  rw [member]
  cases l.items? <;> rfl

theorem member_eq_error_iff : member t l = .error e ↔ l.items? = .error e := by
  rw [member_eq]
  cases l.items? <;> simp [Except.map]

theorem exists_member_iff : (∃ g, member t l = .ok g) ↔ l.Proper := by
  rw [member_eq, ← Term.exists_items?_iff]
  cases l.items? <;> simp [Except.map]

variable {x : Var} {l₁ l₂ : Term}

/-- The first list is read before the second one. -/
theorem common_eq_error_iff :
    common x l₁ l₂ = .error e ↔ l₁.items? = .error e ∨ l₁.Proper ∧ l₂.items? = .error e := by
  rw [common, member_eq, member_eq, ← Term.exists_items?_iff]
  cases l₁.items? <;> cases l₂.items? <;> simp [Except.map, bind, Except.bind, pure, Except.pure]

theorem exists_common_iff : (∃ g, common x l₁ l₂ = .ok g) ↔ l₁.Proper ∧ l₂.Proper := by
  rw [common, member_eq, member_eq, ← Term.exists_items?_iff, ← Term.exists_items?_iff]
  cases l₁.items? <;> cases l₂.items? <;> simp [Except.map, bind, Except.bind, pure, Except.pure]

section

variable {m : Type → Type} [Monad m] [LawfulMonad m] {σ : Type} (run : Equation → Search m σ)

/-- The loop over the items and the recursion along the list are refused together, and else make the same search. -/
theorem search_member (t l : Term) : (member t l).map (search run) = (memberRec t l).map (search run) := by
  induction l with
  | nil => exact congrArg Except.ok Search.disjAll_nil
  | pair i a d _ ihd =>
    rw [member_eq, Term.items?_pair] at *
    rw [memberRec]
    cases hd : d.items? <;> cases hrec : memberRec t d <;> rw [hd, hrec] at ihd
    case error.error => exact congrArg Except.error (Except.error.inj ihd)
    case ok.ok items rest =>
      have hrest : (disjAll (items.map fun item => .prim ⟨t, item⟩)).search run = rest.search run := Except.ok.inj ihd
      refine congrArg Except.ok ?_
      show Search.disjAll (searches run (.prim ⟨t, a⟩ :: items.map fun item => .prim ⟨t, item⟩)) = _
      rw [searches, Search.disjAll_cons]
      exact congrArg (Search.disj (run ⟨t, a⟩)) hrest
    all_goals contradiction
  | _ => rfl

end

end Goal

/-! ### Main statement -/

/-- A list that was made has the items of which it was made, and a term is read as a list of given items if and only if
it is the same tree as the list made of them.  A term that cannot be read is reported by its one end, which is an atom
or a variable.  The relations on lists are refused exactly for lists that are not proper, with the end of the first
such list, and the goal that a term is an item of a list is the goal made along the list. -/
theorem properLists_agree (t l l₁ l₂ : Term) (x : Var) :
    (∀ xs σ, (Term.ofList xs σ).1.items? = .ok xs) ∧
      (∀ xs σ, (∃ ys, l.items? = .ok ys ∧ Term.SameItems ys xs) ↔ l.same (Term.ofList xs σ).1 = true) ∧
      (l.Proper ↔ ∃ xs σ, l.same (Term.ofList xs σ).1 = true) ∧
      (∃! found, l.EndsIn found) ∧
      (∀ e, l.items? = .error e ↔ ∃ found, l.EndsIn found ∧ ((∃ i a, found = .atom i a) ∨ ∃ y, found = .var y) ∧
        e = .improperList found) ∧
      ((∃ e, Goal.member t l = .error e) ↔ ¬l.Proper) ∧
      (∀ e, Goal.member t l = .error e ↔ ∃ found, l.EndsIn found ∧ found ≠ .nil ∧ e = .improperList found) ∧
      ((∃ e, Goal.common x l₁ l₂ = .error e) ↔ ¬l₁.Proper ∨ ¬l₂.Proper) ∧
      (∀ e, Goal.common x l₁ l₂ = .error e ↔
        ∃ found, (l₁.EndsIn found ∨ l₁.Proper ∧ l₂.EndsIn found) ∧ found ≠ .nil ∧ e = .improperList found) ∧
      ∀ fuel, (Goal.member t l).map (Goal.search (Equation.search fuel)) =
        (Goal.memberRec t l).map (Goal.search (Equation.search fuel)) := by
  have hend : ∀ l e, Term.items? l = .error e ↔
      ∃ found, l.EndsIn found ∧ ((∃ i a, found = .atom i a) ∨ ∃ y, found = .var y) ∧ e = .improperList found := by
    intro l e
    rw [Term.items?_eq_error_iff]
    refine exists_congr fun found => and_congr_right fun h => and_congr_left fun _ => ⟨h.atom_or_var, ?_⟩
    rintro (⟨i, a, rfl⟩ | ⟨y, rfl⟩) <;> simp
  refine ⟨Term.items?_ofList, Term.exists_same_items_iff, Term.proper_iff_same_ofList, l.existsUnique_endsIn, hend l,
    ?_, ?_, ?_, ?_, fun fuel => Goal.search_member (Equation.search fuel) t l⟩
  · rw [← Goal.exists_member_iff (t := t)]
    cases Goal.member t l <;> simp
  · simp only [Goal.member_eq_error_iff, Term.items?_eq_error_iff, implies_true]
  · rw [← not_and_or, ← Goal.exists_common_iff (x := x)]
    cases Goal.common x l₁ l₂ <;> simp
  · intro e
    simp only [Goal.common_eq_error_iff, Term.items?_eq_error_iff]
    constructor
    · rintro (⟨found, h, hrest⟩ | ⟨hl₁, found, h, hrest⟩)
      · exact ⟨found, .inl h, hrest⟩
      · exact ⟨found, .inr ⟨hl₁, h⟩, hrest⟩
    · rintro ⟨found, h | ⟨hl₁, h⟩, hrest⟩
      · exact .inl ⟨found, h, hrest⟩
      · exact .inr ⟨hl₁, found, h, hrest⟩

end RelLogic
