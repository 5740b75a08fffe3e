import Mathlib.Data.Multiset.Bind
import Mathlib.SetTheory.Cardinal.NatCard
import RelLogic.Proofs.Solutions

/-!
# Order of goals and sides of equations

Goals in another order, with the sides of some equations swapped, bind other variables, fail at other places and make
loops at other moments, so there is no way to compare the steps of two searches.  But the solution sets of the
branches are the same up to their order: joining branches intersects solution sets, and intersection is commutative.
Since these sets determine the solution sets of the acyclic results, the acyclic results of both searches are the same
up to their order, as far as finite trees are concerned (`search_rearranged`).
-/

namespace RelLogic

open Relation (ReflTransGen)

/-! ### Rearranged goals -/

/-- One equation, anywhere in the goal expression, has its sides swapped. -/
inductive Swapped : Goal Clause → Goal Clause → Prop
  | eq (u v : Term) : Swapped (.prim (.eq u v)) (.prim (.eq v u))
  | disjLeft {g g' : Goal Clause} (h : Goal Clause) : Swapped g g' → Swapped (.disj g h) (.disj g' h)
  | disjRight {h h' : Goal Clause} (g : Goal Clause) : Swapped h h' → Swapped (.disj g h) (.disj g h')
  | conjLeft {g g' : Goal Clause} (h : Goal Clause) : Swapped g g' → Swapped (.conj g h) (.conj g' h)
  | conjRight {h h' : Goal Clause} (g : Goal Clause) : Swapped h h' → Swapped (.conj g h) (.conj g h')
  | disjAll {g g' : Goal Clause} (before after : List (Goal Clause)) :
      Swapped g g' → Swapped (.disjAll (before ++ g :: after)) (.disjAll (before ++ g' :: after))
  | conjAll {g g' : Goal Clause} (before after : List (Goal Clause)) :
      Swapped g g' → Swapped (.conjAll (before ++ g :: after)) (.conjAll (before ++ g' :: after))

/-- The goal expressions in another order, and with the sides of any number of equations in them swapped. -/
def Rearranged (gs gs' : List (Goal Clause)) : Prop :=
  ∃ hs, gs.Perm hs ∧ ReflTransGen Swapped (.conjAll hs) (.conjAll gs')

/-! ### Solution sets of branches -/

/-- Every set of the first family intersected with every set of the second. -/
def meets {α : Type} (A B : Multiset (Set α)) : Multiset (Set α) :=
  A.bind fun a => B.map fun b => a ∩ b

theorem meets_left_comm {α : Type} (A B C : Multiset (Set α)) : meets A (meets B C) = meets B (meets A C) := by
  simp only [meets, Multiset.map_bind, Multiset.map_map, Function.comp_def]
  rw [Multiset.bind_bind]
  simp only [Set.inter_left_comm]

instance {α : Type} : LeftCommutative (@meets α) :=
  ⟨meets_left_comm⟩

/-- The solution sets of the branches, in any order. -/
def solutionSets (bs : List (List Equation)) : Multiset (Set (Var → Tree)) :=
  bs.map solutionsOf

@[simp] theorem solutionSets_append (bs cs : List (List Equation)) :
    solutionSets (bs ++ cs) = solutionSets bs + solutionSets cs := by
  simp [solutionSets]

theorem solutionSets_joined (bs cs : List (List Equation)) :
    solutionSets (joined bs cs) = meets (solutionSets bs) (solutionSets cs) := by
  induction bs with
  | nil => rfl
  | cons b bs ih =>
    have hhead : solutionSets (cs.map (b ++ ·)) = (solutionSets cs).map (solutionsOf b ∩ ·) := by
      simp [solutionSets, Function.comp_def]
    have hcons : joined (b :: bs) cs = cs.map (b ++ ·) ++ joined bs cs := rfl
    have hsets : solutionSets (b :: bs) = solutionsOf b ::ₘ solutionSets bs := rfl
    rw [hcons, solutionSets_append, hhead, ih, hsets, meets, meets, Multiset.cons_bind]

theorem solutionSets_foldr_joined (bss : List (List (List Equation))) (bs : List (List Equation)) :
    solutionSets (bss.foldr joined bs) = (bss.map solutionSets).foldr meets (solutionSets bs) := by
  induction bss with
  | nil => rfl
  | cons cs bss ih => rw [List.foldr_cons, solutionSets_joined, ih, List.map_cons, List.foldr_cons]

theorem Swapped.solutionSets_eq {g g' : Goal Clause} (h : Swapped g g') :
    solutionSets (g.branches Clause.branches) = solutionSets (g'.branches Clause.branches) := by
  induction h with
  | eq u v => simp only [Goal.branches, Clause.branches, solutionSets, List.map_cons, solutionsOf_swap]
  | disjLeft h _ ih => rw [Goal.branches, Goal.branches, solutionSets_append, solutionSets_append, ih]
  | disjRight g _ ih => rw [Goal.branches, Goal.branches, solutionSets_append, solutionSets_append, ih]
  | conjLeft h _ ih => rw [Goal.branches, Goal.branches, solutionSets_joined, solutionSets_joined, ih]
  | conjRight g _ ih => rw [Goal.branches, Goal.branches, solutionSets_joined, solutionSets_joined, ih]
  | disjAll before after _ ih => simp [Goal.branches, Goal.branchLists_eq_map, ih]
  | conjAll before after _ ih =>
    simp [Goal.branches, Goal.branchLists_eq_map, solutionSets_foldr_joined, solutionSets_joined, ih]

theorem solutionSets_conjAll_perm {gs hs : List (Goal Clause)} (h : gs.Perm hs) :
    solutionSets ((Goal.conjAll gs).branches Clause.branches) =
      solutionSets ((Goal.conjAll hs).branches Clause.branches) := by
  simp only [Goal.branches, Goal.branchLists_eq_map, solutionSets_foldr_joined]
  exact ((h.map _).map _).foldr_eq _

theorem Rearranged.solutionSets_eq {gs gs' : List (Goal Clause)} (h : Rearranged gs gs') :
    solutionSets ((Goal.conjAll gs).branches Clause.branches) =
      solutionSets ((Goal.conjAll gs').branches Clause.branches) := by
  obtain ⟨hs, hperm, hswaps⟩ := h
  rw [solutionSets_conjAll_perm hperm]
  generalize Goal.conjAll gs' = g' at hswaps ⊢
  induction hswaps with
  | refl => rfl
  | tail _ hswap ih => rw [ih, hswap.solutionSets_eq]

/-! ### Matching positions -/

section

open Classical

variable {α β γ : Type}

private theorem card_positions (p : α → Prop) (l : List α) :
    Nat.card {i : Fin l.length // p (l.get i)} = l.countP (p ·) := by
  calc Nat.card {i : Fin l.length // p (l.get i)}
    _ = (Finset.univ.filter fun i => p (l.get i)).card := by rw [Nat.card_eq_fintype_card, Fintype.card_subtype]
    _ = (Finset.univ.val.map l.get).countP p := by rw [Multiset.countP_map, Finset.card, Finset.filter_val]
    _ = l.countP (p ·) := by rw [Fin.univ_val_map, List.ofFn_get, Multiset.coe_countP]

private theorem card_positions_value (p : α → Prop) (f : α → γ) (l : List α) (c : γ) :
    Nat.card {i : {i : Fin l.length // p (l.get i)} // f (l.get i.1) = c} =
      ((l.filter (p ·)).map f).countP (· = c) := by
  rw [Nat.card_congr (Equiv.subtypeSubtypeEquivSubtypeInter _ fun i => f (l.get i) = c),
    card_positions (fun a => p a ∧ f a = c), List.countP_map, List.countP_filter]
  simp only [Function.comp_def, Bool.decide_and, Bool.and_comm]

/-- Two lists that have the same values, as often as in each other, at the positions with given properties: these
positions can be matched. -/
theorem exists_equiv_of_perm {p : α → Prop} {q : β → Prop} {f : α → γ} {f' : β → γ} {l : List α} {l' : List β}
    (h : ((l.filter (p ·)).map f).Perm ((l'.filter (q ·)).map f')) :
    ∃ e : {i : Fin l.length // p (l.get i)} ≃ {j : Fin l'.length // q (l'.get j)},
      ∀ i, f' (l'.get (e i).1) = f (l.get i.1) := by
  -- each value stands at as many positions of the one list as of the other
  have hfiber : ∀ c, Nonempty ({i : {i : Fin l.length // p (l.get i)} // f (l.get i.1) = c} ≃
      {j : {j : Fin l'.length // q (l'.get j)} // f' (l'.get j.1) = c}) := by
    intro c
    rw [← Finite.card_eq, card_positions_value, card_positions_value, h.countP_eq]
  exact ⟨Equiv.ofFiberEquiv fun c => (hfiber c).some, fun i => Equiv.ofFiberEquiv_map (fun c => (hfiber c).some) i⟩

end

/-! ### Main statement -/

variable {s : Subst} {fuel fuel' : Nat} {past past' after after' : List Event} {results results' : List Subst}

open Classical in
/-- The solution sets of the acyclic results of a search are determined by those of the branches. -/
theorem solutions_of_search (hs : s.Acyclic) {g : Goal Clause} {g' : Goal Equation}
    (hg : g.expand Clause.goal = .ok g') (h : g'.solutions fuel s past = some (results, after)) :
    (((results.filter (·.Acyclic)).map Subst.solutions : List (Set (Var → Tree))) : Multiset (Set (Var → Tree))) =
      ((solutionSets (g.branches Clause.branches)).map (s.solutions ∩ ·)).filter (·.Nonempty) := by
  have hanswers := search_refines_answers? g' s past results after h
  rw [Goal.branches_expand (fun _ _ => branches_of_clause) g g' hg] at hanswers
  rw [solutions_of_answers? hs hanswers, solutionSets, Multiset.map_coe, Multiset.filter_coe, List.map_map]
  rfl

/-- Two substitutions with the same solutions, of which the second resolves to the same tree each term of which the
first leaves no variable. -/
structure Subst.Agrees (s s' : Subst) : Prop where
  solutions : s'.solutions = s.solutions
  resolved : ∀ {t r σ σ'}, s.resolve? t σ = some (r, σ') → r.vars = [] →
    ∀ τ, ∃ r' τ', s'.resolve? t τ = some (r', τ') ∧ r'.same r = true

/-- The acyclic results of two searches of rearranged goals from one acyclic substitution can be matched, each at its
place in the list, so that matched results agree. -/
theorem search_rearranged (hs : s.Acyclic) {gs gs' : List (Goal Clause)} (hgs : Rearranged gs gs')
    {g g' : Goal Equation} (hg : (Goal.conjAll gs).expand Clause.goal = .ok g)
    (hg' : (Goal.conjAll gs').expand Clause.goal = .ok g') (h : g.solutions fuel s past = some (results, after))
    (h' : g'.solutions fuel' s past' = some (results', after')) :
    ∃ e : {i : Fin results.length // (results.get i).Acyclic} ≃ {j : Fin results'.length // (results'.get j).Acyclic},
      ∀ i, (results.get i.1).Agrees (results'.get (e i).1) := by
  have hsets := solutions_of_search hs hg h
  rw [hgs.solutionSets_eq, ← solutions_of_search hs hg' h', Multiset.coe_eq_coe] at hsets
  obtain ⟨e, he⟩ := exists_equiv_of_perm hsets
  refine ⟨e, fun i => ⟨he i, fun hr hground τ => ?_⟩⟩
  exact Subst.resolve?_of_ground (e i).2 (he i).subset hr hground τ

/-- Whether `x` is first made equal to `y` or to `true`, both are `true` in the end. -/
theorem search_rearranged_equations :
    Rearranged [.prim (.eq (.var ⟨0, "x"⟩) (.var ⟨1, "y"⟩)), .prim (.eq (.var ⟨0, "x"⟩) (.atom 0 (.bool true)))]
        [.prim (.eq (.atom 0 (.bool true)) (.var ⟨0, "x"⟩)), .prim (.eq (.var ⟨0, "x"⟩) (.var ⟨1, "y"⟩))] ∧
      ∃ results results' : List Subst,
        results = [⟨[(⟨1, "y"⟩, .atom 0 (.bool true)), (⟨0, "x"⟩, .var ⟨1, "y"⟩)], 2⟩] ∧
        results' = [⟨[(⟨1, "y"⟩, .atom 0 (.bool true)), (⟨0, "x"⟩, .atom 0 (.bool true))], 2⟩] ∧
        ∃ e : {i : Fin results.length // (results.get i).Acyclic} ≃
            {j : Fin results'.length // (results'.get j).Acyclic},
          ∀ i, (results.get i.1).Agrees (results'.get (e i).1) := by
  have hgs : Rearranged
      [.prim (.eq (.var ⟨0, "x"⟩) (.var ⟨1, "y"⟩)), .prim (.eq (.var ⟨0, "x"⟩) (.atom 0 (.bool true)))]
      [.prim (.eq (.atom 0 (.bool true)) (.var ⟨0, "x"⟩)), .prim (.eq (.var ⟨0, "x"⟩) (.var ⟨1, "y"⟩))] :=
    ⟨_, .swap _ _ _, .single (.conjAll [] _ (.eq _ _))⟩
  refine ⟨hgs, _, _, rfl, rfl, ?_⟩
  exact search_rearranged Subst.acyclic_empty hgs rfl rfl (rfl : Goal.solutions 1 _ .empty [] = _)
    (rfl : Goal.solutions 1 _ .empty [] = _)

end RelLogic
