import RelLogic.Event
import RelLogic.Search

/-!
# Laws of searches

In every lawful monad a disjunction of many searches is the chain of disjunctions of two (`Search.disjAll_cons`), and
sending states through a list of searches is sending them through the first and the results through the others
(`Search.levels_cons`): to stop where no state is left saves work and changes nothing.

`Traced.Refines p q` says that whatever the traced computation `p` gives, from whatever past, the plain computation
`q` gives too, and `Traced.Ends p` that `p` does give something.  Both are kept by the ways in which searches are
combined.
-/

namespace RelLogic

namespace Search

variable {m : Type → Type} [Monad m] [LawfulMonad m] {σ : Type}

/-! ### Many states -/

@[simp] theorem each_nil (g : Search m σ) : each g [] = pure [] := by
  simp [each]

@[simp] theorem each_cons (g : Search m σ) (s : σ) (states : List σ) :
    each g (s :: states) = do
      let results ← g s
      let others ← each g states
      return results ++ others := by
  simp [each]

theorem each_append (g : Search m σ) (left right : List σ) :
    each g (left ++ right) = do
      let results ← each g left
      let others ← each g right
      return results ++ others := by
  induction left with
  | nil => simp
  | cons s left ih =>
    rw [List.cons_append, each_cons, each_cons, ih]
    simp only [bind_assoc, pure_bind, List.append_assoc]

theorem each_singleton (g : Search m σ) (s : σ) : each g [s] = g s := by
  simp

/-! ### Many searches -/

@[simp] theorem disjAll_nil : disjAll [] = (fail : Search m σ) := by
  funext s
  simp [disjAll, fail]

theorem disjAll_cons (g : Search m σ) (gs : List (Search m σ)) : disjAll (g :: gs) = disj g (disjAll gs) := by
  funext s
  simp [disjAll, disj]

omit [LawfulMonad m] in
@[simp] theorem levels_nil (states : List σ) : levels ([] : List (Search m σ)) states = pure states := by
  rw [levels]

/-- No results come from no states. -/
theorem levels_empty (gs : List (Search m σ)) : levels gs [] = pure [] := by
  cases gs <;> simp [levels]

theorem levels_cons (g : Search m σ) (gs : List (Search m σ)) (states : List σ) :
    levels (g :: gs) states = each g states >>= levels gs := by
  rw [levels]
  -- stopping early gives what the other searches give from no states
  refine bind_congr fun next => ?_
  cases next with
  | nil => simp [levels_empty]
  | cons s next => simp

end Search

/-! ### Traced computations and plain ones -/

namespace Traced

variable {α β : Type}

/-- Whatever the traced computation gives, the plain one gives too. -/
def Refines (p : Traced α) (q : Option α) : Prop :=
  ∀ past a past', p past = some (a, past') → q = some a

theorem bind_apply (p : Traced α) (f : α → Traced β) (past : List Event) :
    (p >>= f) past = (p past).bind fun r => f r.1 r.2 := rfl

theorem refines_pure (a : α) : Refines (pure a) (some a) := by
  intro past b past' h
  have h' : some (a, past) = some (b, past') := h
  obtain ⟨rfl, -⟩ : a = b ∧ past = past' := by simpa using h'
  rfl

theorem Refines.bind {p : Traced α} {q : Option α} {f : α → Traced β} {k : α → Option β} (hp : p.Refines q)
    (hf : ∀ a, (f a).Refines (k a)) : (p >>= f).Refines (q >>= k) := by
  intro past b past' h
  rw [bind_apply, Option.bind_eq_some_iff] at h
  obtain ⟨⟨a, mid⟩, ha, hb⟩ := h
  rw [hp past a mid ha]
  exact hf a mid b past' hb

theorem Refines.mono {p : Traced α} {q q' : Option α} (hp : p.Refines q) (hq : ∀ a, q = some a → q' = some a) :
    p.Refines q' :=
  fun past a past' h => hq a (hp past a past' h)

theorem refines_each {σ : Type} {g : Search Traced σ} {k : Search Option σ} (hg : ∀ s, (g s).Refines (k s))
    (states : List σ) : (Search.each g states).Refines (Search.each k states) := by
  induction states with
  | nil =>
    rw [Search.each_nil, Search.each_nil]
    exact refines_pure []
  | cons s states ih =>
    rw [Search.each_cons, Search.each_cons]
    exact (hg s).bind fun results => ih.bind fun others => refines_pure (results ++ others)

/-! ### Traced computations that end -/

/-- The computation comes to an end, from whatever past. -/
def Ends (p : Traced α) : Prop :=
  ∀ past, ∃ r, p past = some r

theorem ends_pure (a : α) : Ends (pure a) :=
  fun past => ⟨(a, past), rfl⟩

theorem Ends.bind {p : Traced α} {f : α → Traced β} (hp : p.Ends)
    (hf : ∀ past a past', p past = some (a, past') → (f a).Ends) : (p >>= f).Ends := by
  intro past
  obtain ⟨⟨a, mid⟩, ha⟩ := hp past
  rw [bind_apply, ha]
  exact hf past a mid ha mid

theorem ends_each {σ : Type} {g : Search Traced σ} {states : List σ} (hg : ∀ s ∈ states, (g s).Ends) :
    (Search.each g states).Ends := by
  induction states with
  | nil =>
    rw [Search.each_nil]
    exact ends_pure []
  | cons s states ih =>
    obtain ⟨hs, hstates⟩ := List.forall_mem_cons.1 hg
    rw [Search.each_cons]
    exact hs.bind fun _ results _ _ => (ih hstates).bind fun _ others _ _ => ends_pure (results ++ others)

theorem ends_disjAll {σ : Type} {gs : List (Search Traced σ)} {s : σ} (hgs : ∀ g ∈ gs, (g s).Ends) :
    (Search.disjAll gs s : Traced (List σ)).Ends := by
  induction gs with
  | nil =>
    rw [Search.disjAll_nil]
    exact ends_pure []
  | cons g gs ih =>
    obtain ⟨hg, hrest⟩ := List.forall_mem_cons.1 hgs
    rw [Search.disjAll_cons]
    exact hg.bind fun _ left _ _ => (ih hrest).bind fun _ right _ _ => ends_pure (left ++ right)

end Traced

end RelLogic
