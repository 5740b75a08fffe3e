import RelLogic.Goal.Arithmetic
import RelLogic.Proofs.Chains

/-!
# The algebra of searches

Disjunction is associative with failure as its unit, in every monad: the searches are run in one order.  Conjunction has
success as its unit and fails where its first part fails.  Where searches are plain functions of the state, conjunction
is associative too and fails where its second part fails, and it distributes over a disjunction in its first part
(`Search.conj_disj_left`).  Over a disjunction in its second part it distributes up to the order of the results
(`Search.conj_disj_right_perm`): on the one side the results from one state come together, on the other side those of
one part of the disjunction.  The order is the same for all searches only where there is no more than one state
(`Search.conj_disj_right_iff`).

From associativity and units it follows that brackets do not matter in a chain of disjunctions or of conjunctions
(`Bracketing.meaning_fold`), and that a combinator of many parts can be cut in two (`foldr_append_eq`).
-/

namespace RelLogic

namespace Search

/-! ### Laws in every monad -/

section

variable {m : Type → Type} [Monad m] [LawfulMonad m] {σ : Type}

theorem disj_assoc (f g h : Search m σ) : disj (disj f g) h = disj f (disj g h) := by
  funext s
  simp only [disj, bind_assoc, pure_bind, List.append_assoc]

@[simp] theorem fail_disj (f : Search m σ) : disj fail f = f := by
  funext s
  simp [disj, fail]

@[simp] theorem disj_fail (f : Search m σ) : disj f fail = f := by
  funext s
  simp [disj, fail]

@[simp] theorem each_succeed (states : List σ) : each succeed states = (pure states : m (List σ)) := by
  induction states with
  | nil => exact each_nil succeed
  | cons s states ih => simp [succeed, ih]

@[simp] theorem succeed_conj (f : Search m σ) : conj succeed f = f := by
  funext s
  simp [conj, succeed]

@[simp] theorem conj_succeed (f : Search m σ) : conj f succeed = f := by
  funext s
  simp only [conj, each_succeed, bind_pure]

@[simp] theorem fail_conj (f : Search m σ) : conj fail f = fail := by
  funext s
  simp [conj, fail]

instance : Std.Associative (disj : Search m σ → Search m σ → Search m σ) := ⟨disj_assoc⟩

instance : Std.LawfulIdentity (disj : Search m σ → Search m σ → Search m σ) fail where
  left_id := fail_disj
  right_id := disj_fail

instance : Std.LawfulIdentity (conj : Search m σ → Search m σ → Search m σ) succeed where
  left_id := succeed_conj
  right_id := conj_succeed

end

/-! ### Laws of plain searches -/

variable {σ : Type}

theorem conj_apply (f g : Search Id σ) (s : σ) : conj f g s = (f s : List σ).flatMap g :=
  each_eq_flatMap g (f s)

theorem conj_assoc (f g h : Search Id σ) : conj (conj f g) h = conj f (conj g h) := by
  funext s
  calc conj (conj f g) h s
    _ = ((f s : List σ).flatMap g).flatMap h := by rw [conj_apply, conj_apply]
    _ = (f s : List σ).flatMap fun r => (g r : List σ).flatMap h := List.flatMap_assoc
    _ = conj f (conj g h) s := by rw [conj_apply, funext (conj_apply g h)]

instance : Std.Associative (conj : Search Id σ → Search Id σ → Search Id σ) := ⟨conj_assoc⟩

@[simp] theorem conj_fail (f : Search Id σ) : conj f fail = fail := by
  funext s
  rw [conj_apply]
  exact List.flatMap_eq_nil_iff.2 fun _ _ => rfl

/-! ### Distribution -/

theorem disj_conj_apply (f f' g g' : Search Id σ) (s : σ) :
    disj (conj f g) (conj f' g') s = (f s : List σ).flatMap g ++ (f' s : List σ).flatMap g' := by
  rw [← conj_apply, ← conj_apply]
  rfl

theorem conj_disj_left (f g h : Search Id σ) : conj (disj f g) h = disj (conj f h) (conj g h) := by
  funext s
  rw [conj_apply, disj_conj_apply]
  exact List.flatMap_append

/-- Both orders of the results: from each state in turn, and first all those of the one part. -/
theorem conj_disj_right_perm (f g h : Search Id σ) (s : σ) :
    (conj h (disj f g) s : List σ).Perm (disj (conj h f) (conj h g) s) := by
  rw [conj_apply, disj_conj_apply]
  exact (List.flatMap_append_perm (h s) f g).symm

/-- A search that gives two different states shows which of the two orders it is. -/
theorem conj_disj_right_iff :
    (∀ f g h : Search Id σ, conj h (disj f g) = disj (conj h f) (conj h g)) ↔ Subsingleton σ := by
  constructor
  · intro hlaw
    refine ⟨fun a b => ?_⟩
    have horder : [a, a, b, b] = [a, b, a, b] := congrFun (hlaw succeed succeed fun _ => [a, b]) a
    exact (List.cons.inj (List.cons.inj horder).2).1
  · intro _ f g h
    funext s
    have hlength := (conj_disj_right_perm f g h s).length_eq
    exact List.ext_getElem hlength fun _ _ _ => Subsingleton.elim _ _

end Search

/-! ### Two parts of a chain -/

/-- Where brackets do not matter, a chain is combined from its two parts. -/
theorem foldr_append_eq {α : Type} {op : α → α → α} {unit : α} [Std.Associative op] [Std.LawfulIdentity op unit]
    (xs ys : List α) : (xs ++ ys).foldr op unit = op (xs.foldr op unit) (ys.foldr op unit) := by
  have hunit : op unit (ys.foldr op unit) = ys.foldr op unit := Std.LawfulLeftIdentity.left_id _
  calc (xs ++ ys).foldr op unit
    _ = xs.foldr op (ys.foldr op unit) := List.foldr_append
    _ = xs.foldr op (op unit (ys.foldr op unit)) := by rw [hunit]
    _ = op (xs.foldr op unit) (ys.foldr op unit) := List.foldr_assoc

namespace Search

theorem disjAll_append {m : Type → Type} [Monad m] [LawfulMonad m] {σ : Type} (gs hs : List (Search m σ)) :
    disjAll (gs ++ hs) = disj (disjAll gs) (disjAll hs) := by
  simp only [disjAll_eq_foldr, foldr_append_eq]

theorem conjAll_append {σ : Type} (gs hs : List (Search Id σ)) :
    conjAll (gs ++ hs) = conj (conjAll gs) (conjAll hs) := by
  simp only [conjAll_eq_foldr, foldr_append_eq]

end Search

/-! ### Brackets -/

/-- A row of items in which some rows of items, or none, stand in brackets, and so on inside the brackets. -/
inductive Bracketing (α : Type)
  | item (a : α)
  | group (parts : List (Bracketing α))

namespace Bracketing

variable {α : Type}

mutual

/-- The items from left to right, without the brackets. -/
def items : Bracketing α → List α
  | .item a => [a]
  | .group parts => itemsAll parts

/-- The items of all the given parts. -/
def itemsAll : List (Bracketing α) → List α
  | [] => []
  | b :: bs => b.items ++ itemsAll bs

end

mutual

/-- What the row comes to where each row in brackets is made into one item first. -/
def fold (chain : List α → α) : Bracketing α → α
  | .item a => a
  | .group parts => chain (foldAll chain parts)

/-- What the given parts come to. -/
def foldAll (chain : List α → α) : List (Bracketing α) → List α
  | [] => []
  | b :: bs => b.fold chain :: foldAll chain bs

end

/-- Induction on bracketings, with a hypothesis for each of the parts in brackets. -/
theorem ind {motive : Bracketing α → Prop} (item : ∀ a, motive (.item a))
    (group : ∀ parts, (∀ b ∈ parts, motive b) → motive (.group parts)) (b : Bracketing α) : motive b :=
  @Bracketing.rec α motive (fun bs => ∀ b ∈ bs, motive b) item group nofun
    (fun _ _ hb hbs => List.forall_mem_cons.2 ⟨hb, hbs⟩) b

/-- If the meaning of a chain is the combination of the meanings of its items, so is that of a bracketing. -/
theorem meaning_fold {β : Type} {meaning : α → β} {op : β → β → β} {unit : β} [Std.Associative op]
    [Std.LawfulIdentity op unit] {chain : List α → α}
    (hchain : ∀ as, meaning (chain as) = (as.map meaning).foldr op unit) (b : Bracketing α) :
    meaning (b.fold chain) = (b.items.map meaning).foldr op unit := by
  induction b using Bracketing.ind with
  | item a =>
    show meaning a = op (meaning a) unit
    exact (Std.LawfulRightIdentity.right_id _).symm
  | group parts ih =>
    rw [fold, items, hchain]
    induction parts with
    | nil => rfl
    | cons b bs ihbs =>
      obtain ⟨hb, hbs⟩ := List.forall_mem_cons.1 ih
      rw [foldAll, itemsAll, List.map_cons, List.foldr_cons, List.map_append, foldr_append_eq, hb, ihbs hbs]

end Bracketing

namespace Goal

variable {π σ : Type}

theorem search_chain {m : Type → Type} [Monad m] {run : π → Search m σ} {op : Search m σ → Search m σ → Search m σ}
    {unit : Search m σ} [Std.LawfulIdentity op unit] {chain : List (Goal π) → Goal π}
    (hnil : (chain []).search run = unit) (hone : ∀ g, chain [g] = g)
    (hcons : ∀ g h gs, (chain (g :: h :: gs)).search run = op (g.search run) ((chain (h :: gs)).search run))
    (gs : List (Goal π)) : (chain gs).search run = (gs.map (search run)).foldr op unit := by
  induction gs with
  | nil => exact hnil
  | cons g gs ih =>
    cases gs with
    | nil =>
      rw [hone]
      exact (Std.LawfulRightIdentity.right_id _).symm
    | cons h gs => rw [hcons, ih, List.map_cons (l := h :: gs), List.foldr_cons]

theorem search_disjChain {m : Type → Type} [Monad m] [LawfulMonad m] (run : π → Search m σ) (gs : List (Goal π)) :
    (disjChain gs).search run = (gs.map (search run)).foldr Search.disj Search.fail :=
  search_chain rfl (fun _ => rfl) (fun _ _ _ => rfl) gs

theorem search_conjChain {m : Type → Type} [Monad m] [LawfulMonad m] (run : π → Search m σ) (gs : List (Goal π)) :
    (conjChain gs).search run = (gs.map (search run)).foldr Search.conj Search.succeed :=
  search_chain rfl (fun _ => rfl) (fun _ _ _ => rfl) gs

end Goal

/-! ### Main statement -/

namespace Search

/-- Searches that are plain functions of a state of any type: disjunction is associative with failure as its unit,
conjunction is associative with success as its unit and fails where one of its parts does, and conjunction distributes
over a disjunction in its first part.  Over a disjunction in its second part it distributes up to the order of the
results, and no better for all searches unless there is at most one state.  The combinators of many parts can be cut in
two, and chains of goals that are the same searches one by one have the same results in the same order, however they
are bracketed. -/
theorem disj_conj_algebra {σ : Type} :
    (∀ f g h : Search Id σ,
      disj (disj f g) h = disj f (disj g h) ∧ conj (conj f g) h = conj f (conj g h) ∧
      conj (disj f g) h = disj (conj f h) (conj g h) ∧
      ∀ s, (conj h (disj f g) s : List σ).Perm (disj (conj h f) (conj h g) s)) ∧
    (∀ f : Search Id σ, disj fail f = f ∧ disj f fail = f ∧ conj succeed f = f ∧ conj f succeed = f ∧
      conj fail f = fail ∧ conj f fail = fail) ∧
    ((∀ f g h : Search Id σ, conj h (disj f g) = disj (conj h f) (conj h g)) ↔ Subsingleton σ) ∧
    (∀ gs hs : List (Search Id σ), disjAll (gs ++ hs) = disj (disjAll gs) (disjAll hs) ∧
      conjAll (gs ++ hs) = conj (conjAll gs) (conjAll hs)) ∧
    ∀ {π : Type} (run : π → Search Id σ) (b c : Bracketing (Goal π)),
      b.items.map (Goal.search run) = c.items.map (Goal.search run) →
        (b.fold Goal.disjChain).search run = (c.fold Goal.disjChain).search run ∧
        (b.fold Goal.conjChain).search run = (c.fold Goal.conjChain).search run := by
  refine ⟨fun f g h => ⟨?_, ?_, ?_, ?_⟩, fun f => ⟨?_, ?_, ?_, ?_, ?_, ?_⟩, conj_disj_right_iff, fun gs hs => ⟨?_, ?_⟩,
    fun run b c hitems => ⟨?_, ?_⟩⟩
  · exact disj_assoc f g h
  · exact conj_assoc f g h
  · exact conj_disj_left f g h
  · exact conj_disj_right_perm f g h
  · exact fail_disj f
  · exact disj_fail f
  · exact succeed_conj f
  · exact conj_succeed f
  · exact fail_conj f
  · exact conj_fail f
  · exact disjAll_append gs hs
  · exact conjAll_append gs hs
  · rw [b.meaning_fold (Goal.search_disjChain run), hitems, c.meaning_fold (Goal.search_disjChain run)]
  · rw [b.meaning_fold (Goal.search_conjChain run), hitems, c.meaning_fold (Goal.search_conjChain run)]

/-- Three goals with brackets around the last two. -/
private def toRight (f g h : Goal Arith) : Bracketing (Goal Arith) :=
  .group [.item f, .group [.item g, .item h]]

/-- Three goals with brackets around the first two. -/
private def toLeft (f g h : Goal Arith) : Bracketing (Goal Arith) :=
  .group [.group [.item f, .item g], .item h]

/-- Adds 2, doubles and triples. -/
private def steps (b : Goal Arith → Goal Arith → Goal Arith → Bracketing (Goal Arith)) : Goal Arith :=
  (b (.prim (.add 2)) (.prim (.mul 2)) (.prim (.mul 3))).fold Goal.conjChain

/-- Adds 1, or takes the three steps, or adds 4. -/
private def choices (b : Goal Arith → Goal Arith → Goal Arith → Bracketing (Goal Arith)) :
    Bracketing (Goal Arith) :=
  b (.prim (.add 1)) (steps b) (.prim (.add 4))

/-- The brackets may be moved both around the choices and within one of them. -/
theorem disj_conj_algebra_moved :
    ((choices toRight).fold Goal.disjChain).search Arith.search =
        ((choices toLeft).fold Goal.disjChain).search Arith.search ∧
      ((choices toRight).fold Goal.disjChain).search Arith.search 0 = [1, 12, 4] := by
  obtain ⟨-, -, -, -, hbrackets⟩ := disj_conj_algebra (σ := Int64)
  have hsteps : (steps toRight).search Arith.search = (steps toLeft).search Arith.search :=
    (hbrackets Arith.search (toRight ..) (toLeft ..) rfl).2
  have hitems : (choices toRight).items.map (Goal.search Arith.search) =
      (choices toLeft).items.map (Goal.search Arith.search) := by
    show [_, (steps toRight).search Arith.search, _] = [_, _, _]
    rw [hsteps]
  exact ⟨(hbrackets Arith.search (choices toRight) (choices toLeft) hitems).1, rfl⟩

end Search

end RelLogic
