import RelLogic.Proofs.Clause

/-!
# The branches of a goal

A goal has a list of branches, and a branch is a list of equations: a disjunction has the branches of its parts one
after the other, and a conjunction has, for each branch of its first part, that branch followed by each branch of
its second part.  Branches do not depend on a substitution, and making the goal of an expression keeps them
(`Goal.branches_expand`).
-/

namespace RelLogic

/-! ### Branches -/

/-- Every branch of the first list followed by every branch of the second. -/
def joined (bs cs : List (List Equation)) : List (List Equation) :=
  bs.flatMap fun b => cs.map fun c => b ++ c

namespace Goal

variable {π : Type}

mutual

/-- The branches of a goal in their order, given those of the primitive goals. -/
def branches (f : π → List (List Equation)) : Goal π → List (List Equation)
  | .prim p => f p
  | .succeed => [[]]
  | .fail => []
  | .disj g h => g.branches f ++ h.branches f
  | .conj g h => joined (g.branches f) (h.branches f)
  | .disjAll gs => (branchLists f gs).flatten
  | .conjAll gs => (branchLists f gs).foldr joined [[]]

/-- The branches of each of the goals. -/
def branchLists (f : π → List (List Equation)) : List (Goal π) → List (List (List Equation))
  | [] => []
  | g :: gs => g.branches f :: branchLists f gs

end

theorem branchLists_eq_map (f : π → List (List Equation)) (gs : List (Goal π)) :
    branchLists f gs = gs.map (branches f) := by
  induction gs with
  | nil => rfl
  | cons g gs ih => rw [branchLists, ih, List.map_cons]

end Goal

/-- An equation is one branch. -/
def Equation.branches (e : Equation) : List (List Equation) :=
  [[e]]

/-- A clause about a list has a branch for each item, and one about two lists a branch for each pair of items, the
items of the first list in order and with each of them those of the second. -/
def Clause.branches : Clause → List (List Equation)
  | .eq u v => [[⟨u, v⟩]]
  | .member t list => list.spine.1.map fun a => [⟨t, a⟩]
  | .common x l₁ l₂ => l₁.spine.1.flatMap fun a => l₂.spine.1.map fun b => [⟨.var x, a⟩, ⟨.var x, b⟩]

/-- An item of two lists is an item of the first and then an item of the second. -/
theorem Clause.branches_common (x : Var) (l₁ l₂ : Term) :
    (Clause.common x l₁ l₂).branches =
      joined (Clause.member (.var x) l₁).branches (Clause.member (.var x) l₂).branches := by
  simp only [branches, joined, List.flatMap_map, List.map_map, Function.comp_def, List.cons_append,
    List.nil_append]

/-! ### Branches of the goal that an expression makes -/

theorem Term.items?_eq_nil_iff {t : Term} : t.items? = .ok [] ↔ t = .nil := by
  constructor
  · intro h
    cases t with
    | nil => rfl
    | pair i a d =>
      rw [items?_pair] at h
      cases hd : d.items? <;> simp [hd, Except.map] at h
    | _ => cases h
  · rintro rfl
    exact items?_nil

/-- A proper list that has items is a pair of the first of them and of a proper list of the others. -/
theorem Term.items?_eq_cons_iff {t a : Term} {items : List Term} :
    t.items? = .ok (a :: items) ↔ ∃ i d, t = .pair i a d ∧ d.items? = .ok items := by
  constructor
  · intro h
    cases t with
    | pair i b d =>
      rw [items?_pair] at h
      cases hd : d.items? with
      | error e => simp [hd, Except.map] at h
      | ok rest =>
        obtain ⟨rfl, rfl⟩ : b = a ∧ rest = items := by simpa [hd, Except.map] using h
        exact ⟨i, d, rfl, hd⟩
    | _ => cases h
  · rintro ⟨i, d, rfl, hd⟩
    rw [items?_pair, hd]
    rfl

theorem Term.spine_of_items? {t : Term} {items : List Term} (h : t.items? = .ok items) : t.spine.1 = items := by
  unfold Term.items? at h
  split at h
  · rename_i xs hs
    rw [hs]
    exact Except.ok.inj h
  · contradiction

private theorem branches_of_member {t list : Term} {g : Goal Equation} (h : Goal.member t list = .ok g) :
    g.branches Equation.branches = (Clause.member t list).branches := by
  obtain ⟨items, hitems, hg⟩ := Goal.exists_of_bind_eq_ok h
  obtain rfl := Except.ok.inj hg
  rw [Clause.branches, Term.spine_of_items? hitems, Goal.branches]
  clear hitems hg h
  induction items with
  | nil => rfl
  | cons a items ih => simpa [Goal.branchLists, Goal.branches, Equation.branches] using ih

/-- The goal that stands for a clause has the branches of the clause. -/
theorem branches_of_clause {c : Clause} {g : Goal Equation} (h : c.goal = .ok g) :
    g.branches Equation.branches = c.branches := by
  cases c with
  | eq u v =>
    obtain rfl := Except.ok.inj h
    rfl
  | member t list => exact branches_of_member h
  | common x l₁ l₂ =>
    obtain ⟨g₁, h₁, h⟩ := Goal.exists_of_bind_eq_ok h
    obtain ⟨g₂, h₂, h⟩ := Goal.exists_of_bind_eq_ok h
    obtain rfl := Except.ok.inj h
    rw [Goal.branches, branches_of_member h₁, branches_of_member h₂, Clause.branches_common]

namespace Goal

variable {π : Type} {f : π → Except ShapeError (Goal Equation)} {B : π → List (List Equation)}

private theorem branchLists_expandAll {gs : List (Goal π)}
    (hgs : ∀ g ∈ gs, ∀ g', g.expand f = .ok g' → g'.branches Equation.branches = g.branches B)
    {gs' : List (Goal Equation)} (h : expandAll f gs = .ok gs') :
    branchLists Equation.branches gs' = branchLists B gs := by
  induction gs generalizing gs' with
  | nil =>
    obtain rfl := Except.ok.inj h
    rfl
  | cons g gs ih =>
    obtain ⟨g₁, h₁, h⟩ := exists_of_bind_eq_ok h
    obtain ⟨gs₂, h₂, h⟩ := exists_of_bind_eq_ok h
    obtain rfl := Except.ok.inj h
    rw [branchLists, branchLists, hgs g (List.mem_cons_self ..) g₁ h₁,
      ih (fun g hg => hgs g (List.mem_cons_of_mem _ hg)) h₂]

/-- Replacing primitive goals by goals with the same branches keeps the branches of the whole. -/
theorem branches_expand (hf : ∀ p g, f p = .ok g → g.branches Equation.branches = B p) (g : Goal π) :
    ∀ g', g.expand f = .ok g' → g'.branches Equation.branches = g.branches B := by
  induction g using Goal.ind with
  | prim p => exact hf p
  | succeed =>
    intro g' h
    obtain rfl := Except.ok.inj h
    rfl
  | fail =>
    intro g' h
    obtain rfl := Except.ok.inj h
    rfl
  | disj g h ihg ihh =>
    intro g' he
    obtain ⟨g₁, h₁, he⟩ := exists_of_bind_eq_ok he
    obtain ⟨g₂, h₂, he⟩ := exists_of_bind_eq_ok he
    obtain rfl := Except.ok.inj he
    rw [branches, branches, ihg g₁ h₁, ihh g₂ h₂]
  | conj g h ihg ihh =>
    intro g' he
    obtain ⟨g₁, h₁, he⟩ := exists_of_bind_eq_ok he
    obtain ⟨g₂, h₂, he⟩ := exists_of_bind_eq_ok he
    obtain rfl := Except.ok.inj he
    rw [branches, branches, ihg g₁ h₁, ihh g₂ h₂]
  | disjAll gs ih =>
    intro g' he
    obtain ⟨gs', h', he⟩ := exists_of_bind_eq_ok he
    obtain rfl := Except.ok.inj he
    rw [branches, branches, branchLists_expandAll ih h']
  | conjAll gs ih =>
    intro g' he
    obtain ⟨gs', h', he⟩ := exists_of_bind_eq_ok he
    obtain rfl := Except.ok.inj he
    rw [branches, branches, branchLists_expandAll ih h']

end Goal

end RelLogic
