import RelLogic.Proofs.Enumeration
import RelLogic.Proofs.MostGeneral

/-!
# Search is logically sound and complete

Under a valuation a goal expression is true or false: equations and clauses about lists say that values are equal,
disjunctions mean "or" and conjunctions "and" (`Goal.Holds`).  A goal holds if all the equations of one of its
branches do (`Goal.holds_iff_branches`), and meeting the equations of a branch adds just these to a substitution
(`follow?_reading_iff`).  So a valuation fits some result of a search if and only if it fits the substitution from
which the search started and makes the goal true: no solution is lost and none is invented.
-/

namespace RelLogic

universe u

variable {D : Type u} {ρ : Var → D}

/-! ### What goals mean -/

namespace Goal

variable {π : Type}

mutual

/-- Whether a goal is true, if it is known which of its primitive goals are. -/
def Holds (P : π → Prop) : Goal π → Prop
  | .prim p => P p
  | .succeed => True
  | .fail => False
  | .disj g h => g.Holds P ∨ h.Holds P
  | .conj g h => g.Holds P ∧ h.Holds P
  | .disjAll gs => HoldsSome P gs
  | .conjAll gs => HoldsEach P gs

/-- One of the goals is true. -/
def HoldsSome (P : π → Prop) : List (Goal π) → Prop
  | [] => False
  | g :: gs => g.Holds P ∨ HoldsSome P gs

/-- All the goals are true. -/
def HoldsEach (P : π → Prop) : List (Goal π) → Prop
  | [] => True
  | g :: gs => g.Holds P ∧ HoldsEach P gs

end

end Goal

/-- What a clause says about the values of its terms; a list stands for the items on its spine. -/
def Clause.Holds (M : Model D) (ρ : Var → D) : Clause → Prop
  | .eq u v => M.eval ρ u = M.eval ρ v
  | .member t list => ∃ a ∈ list.spine.1, M.eval ρ t = M.eval ρ a
  | .common x l₁ l₂ => (∃ a ∈ l₁.spine.1, ρ x = M.eval ρ a) ∧ ∃ b ∈ l₂.spine.1, ρ x = M.eval ρ b

/-! ### Branches -/

/-- One of the branches has only equations that are true. -/
def SomeBranch (Q : Equation → Prop) (bs : List (List Equation)) : Prop :=
  ∃ b ∈ bs, ∀ e ∈ b, Q e

section

variable {Q : Equation → Prop}

@[simp] theorem someBranch_nil : ¬SomeBranch Q [] := by
  simp [SomeBranch]

@[simp] theorem someBranch_unit : SomeBranch Q [[]] := by
  simp [SomeBranch]

@[simp] theorem someBranch_append {bs cs : List (List Equation)} :
    SomeBranch Q (bs ++ cs) ↔ SomeBranch Q bs ∨ SomeBranch Q cs := by
  simp [SomeBranch, or_and_right, exists_or]

/-- A joined branch is true if both its parts are. -/
@[simp] theorem someBranch_joined {bs cs : List (List Equation)} :
    SomeBranch Q (joined bs cs) ↔ SomeBranch Q bs ∧ SomeBranch Q cs := by
  constructor
  · rintro ⟨bc, hbc, htrue⟩
    obtain ⟨b, hb, hbc⟩ := List.mem_flatMap.1 hbc
    obtain ⟨c, hc, rfl⟩ := List.mem_map.1 hbc
    exact ⟨⟨b, hb, fun e he => htrue e (List.mem_append_left _ he)⟩,
      ⟨c, hc, fun e he => htrue e (List.mem_append_right _ he)⟩⟩
  · rintro ⟨⟨b, hb, hbtrue⟩, ⟨c, hc, hctrue⟩⟩
    refine ⟨b ++ c, List.mem_flatMap.2 ⟨b, hb, List.mem_map.2 ⟨c, hc, rfl⟩⟩, fun e he => ?_⟩
    rcases List.mem_append.1 he with he | he
    · exact hbtrue e he
    · exact hctrue e he

variable {π : Type} {P : π → Prop} {B : π → List (List Equation)}

private theorem holdsSome_iff_branches {gs : List (Goal π)}
    (hgs : ∀ g ∈ gs, (g.Holds P ↔ SomeBranch Q (g.branches B))) :
    Goal.HoldsSome P gs ↔ SomeBranch Q (Goal.branchLists B gs).flatten := by
  induction gs with
  | nil => simp [Goal.HoldsSome, Goal.branchLists]
  | cons g gs ih =>
    rw [Goal.HoldsSome, Goal.branchLists, List.flatten_cons, someBranch_append, hgs g (List.mem_cons_self ..),
      ih fun g hg => hgs g (List.mem_cons_of_mem _ hg)]

private theorem holdsEach_iff_branches {gs : List (Goal π)}
    (hgs : ∀ g ∈ gs, (g.Holds P ↔ SomeBranch Q (g.branches B))) :
    Goal.HoldsEach P gs ↔ SomeBranch Q ((Goal.branchLists B gs).foldr joined [[]]) := by
  induction gs with
  | nil => simp [Goal.HoldsEach, Goal.branchLists]
  | cons g gs ih =>
    rw [Goal.HoldsEach, Goal.branchLists, List.foldr_cons, someBranch_joined, hgs g (List.mem_cons_self ..),
      ih fun g hg => hgs g (List.mem_cons_of_mem _ hg)]

/-- A goal is true if and only if all equations of one of its branches are. -/
theorem Goal.holds_iff_branches (hP : ∀ p, P p ↔ SomeBranch Q (B p)) (g : Goal π) :
    g.Holds P ↔ SomeBranch Q (g.branches B) := by
  induction g using Goal.ind with
  | prim p => exact hP p
  | succeed => simp [Holds, branches]
  | fail => simp [Holds, branches]
  | disj g h ihg ihh => rw [Holds, branches, someBranch_append, ihg, ihh]
  | conj g h ihg ihh => rw [Holds, branches, someBranch_joined, ihg, ihh]
  | disjAll gs ih => exact holdsSome_iff_branches ih
  | conjAll gs ih => exact holdsEach_iff_branches ih

end

private theorem member_holds_iff_branches (M : Model D) (t list : Term) :
    (Clause.member t list).Holds M ρ ↔ SomeBranch (M.Equates ρ) (Clause.member t list).branches := by
  constructor
  · rintro ⟨a, ha, hta⟩
    exact ⟨[⟨t, a⟩], List.mem_map.2 ⟨a, ha, rfl⟩, by simpa [Model.Equates] using hta⟩
  · rintro ⟨b, hb, htrue⟩
    obtain ⟨a, ha, rfl⟩ := List.mem_map.1 hb
    exact ⟨a, ha, htrue _ (List.mem_singleton_self _)⟩

theorem Clause.holds_iff_branches (M : Model D) (c : Clause) :
    c.Holds M ρ ↔ SomeBranch (M.Equates ρ) c.branches := by
  cases c with
  | eq u v => simp [Holds, branches, SomeBranch, Model.Equates]
  | member t list => exact member_holds_iff_branches M t list
  | common x l₁ l₂ =>
    rw [branches_common, someBranch_joined, ← member_holds_iff_branches, ← member_holds_iff_branches]
    rfl

/-! ### Meeting the equations of a branch -/

variable {M : FreeModel D} {P : Subst → Prop} {fuel : Nat}

/-- A valuation fits the end of a branch if and only if it fits its beginning and solves its equations. -/
theorem follow?_reading_iff (hP : M.Reading ρ P) {b : List Equation} {s : Subst} {last? : Option Subst}
    (h : follow? fuel b s = some last?) :
    (∃ s', last? = some s' ∧ P s') ↔ P s ∧ M.EquatesAll ρ b := by
  induction b generalizing s with
  | nil =>
    obtain rfl := Option.some.inj h
    simp
  | cons e b ih =>
    rw [follow?] at h
    split at h
    · rename_i events s₁ he
      have hstep := (solves_of_solve? he).reading_iff M hP
      simp only [Option.some.injEq, exists_eq_left', Model.equatesAll_cons, Model.equatesAll_nil,
        and_true] at hstep
      rw [ih h, hstep, Model.equatesAll_cons, and_assoc]
    · -- the branch is given up at `e`, and `hstep` says that no valuation is lost by that
      rename_i events he
      have hstep := (solves_of_solve? he).reading_iff M hP
      obtain rfl := Option.some.inj h
      simp only [Model.equatesAll_cons, Model.equatesAll_nil, and_true] at hstep
      rw [Model.equatesAll_cons, ← and_assoc]
      constructor
      · rintro ⟨s', hs', -⟩
        contradiction
      · rintro ⟨hse, -⟩
        obtain ⟨s', hs', -⟩ := hstep.2 hse
        contradiction
    · contradiction

theorem answers?_reading_iff (hP : M.Reading ρ P) {bs : List (List Equation)} {s : Subst} {results : List Subst}
    (h : answers? fuel bs s = some results) :
    (∃ r ∈ results, P r) ↔ P s ∧ SomeBranch (M.Equates ρ) bs := by
  induction bs generalizing results with
  | nil =>
    obtain rfl := Option.some.inj h
    simp
  | cons b bs ih =>
    simp only [answers?, bind, Option.bind_eq_some_iff, pure, Option.some.injEq] at h
    obtain ⟨last?, hb, others, hothers, rfl⟩ := h
    have hfirst := follow?_reading_iff hP hb
    have hcons : SomeBranch (M.Equates ρ) (b :: bs) ↔ M.EquatesAll ρ b ∨ SomeBranch (M.Equates ρ) bs := by
      simp [SomeBranch, Model.EquatesAll]
    rw [hcons, and_or_left, ← hfirst, ← ih hothers]
    simp [or_and_right, exists_or]

/-! ### Main statement -/

/-- A valuation fits some result of a search if and only if it fits the substitution at its beginning and makes the
goal expression true.  This holds whether of several bindings of a variable each is to be met or only the latest. -/
theorem search_sound_complete {g : Goal Clause} {g' : Goal Equation} (hg : g.expand Clause.goal = .ok g')
    {s : Subst} {past past' : List Event} {results : List Subst}
    (h : g'.solutions fuel s past = some (results, past')) (M : FreeModel D) (ρ : Var → D) :
    ((∃ r ∈ results, M.SatisfiesAll ρ r) ↔ M.SatisfiesAll ρ s ∧ g.Holds (Clause.Holds M.toModel ρ)) ∧
    ((∃ r ∈ results, M.Satisfies ρ r) ↔ M.Satisfies ρ s ∧ g.Holds (Clause.Holds M.toModel ρ)) := by
  have hanswers := search_refines_answers? g' s past results past' h
  rw [Goal.branches_expand (fun _ _ => branches_of_clause) g g' hg] at hanswers
  rw [g.holds_iff_branches (Clause.holds_iff_branches M.toModel)]
  exact ⟨answers?_reading_iff M.reading_satisfiesAll hanswers, answers?_reading_iff M.reading_satisfies hanswers⟩

/-- The sample goal, where every variable is `false`. -/
theorem search_sound_complete_sample :
    ∃ g', Goal.sample.expand Clause.goal = .ok g' ∧
      ∃ results past', g'.solutions 1 .empty [] = some (results, past') ∧
        ((∃ r ∈ results, Tree.model.SatisfiesAll (fun _ => .atom (.bool false)) r) ↔
          Tree.model.SatisfiesAll (fun _ => .atom (.bool false)) .empty ∧
            Goal.sample.Holds (Clause.Holds Tree.model.toModel fun _ => .atom (.bool false))) ∧
        ((∃ r ∈ results, Tree.model.Satisfies (fun _ => .atom (.bool false)) r) ↔
          Tree.model.Satisfies (fun _ => .atom (.bool false)) .empty ∧
            Goal.sample.Holds (Clause.Holds Tree.model.toModel fun _ => .atom (.bool false))) :=
  ⟨_, rfl, _, _, rfl, search_sound_complete rfl (rfl : Goal.solutions 1 _ .empty [] = _) Tree.model _⟩

end RelLogic
