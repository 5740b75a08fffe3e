import RelLogic.Proofs.Clause
import RelLogic.Proofs.Search

/-!
# Corresponding programs

Two runs are compared: a program and another one, possibly in another monad, that is to give a renamed result where
the first gives a result.  A correspondence says when it does, along the function that renames results.  All that is
asked of it is that it is kept by giving a value and by going on from a value (`Correspondence`), and from this alone
it is kept by every way in which searches are combined, so by all goals (`Correspondence.search`): a goal runs like a
goal whose primitive goals run like its own.

Correspondences are made in the way in which monads are: a state is renamed along with the result
(`Correspondence.stateT`), and so is an error (`Correspondence.exceptT`).
-/

namespace RelLogic

/-- The error and the result of a program, each of them renamed. -/
def mapBoth {ε ι α β : Type} (h : ε → ι) (f : α → β) : Except ε α → Except ι β
  | .ok a => .ok (f a)
  | .error e => .error (h e)

/-- When programs of one monad correspond to programs of another, along a function on their results. -/
structure Correspondence (m n : Type → Type) [Monad m] [Monad n] where
  Holds : {α β : Type} → (α → β) → m α → n β → Prop
  holds_pure : ∀ {α β : Type} (f : α → β) (a : α), Holds f (pure a) (pure (f a))
  holds_bind : ∀ {α β γ δ : Type} {f : α → β} {g : γ → δ} {p : m α} {q : n β} {k : α → m γ} {l : β → n δ},
    Holds f p q → (∀ a, Holds g (k a) (l (f a))) → Holds g (p >>= k) (q >>= l)

namespace Correspondence

variable {m n : Type → Type} [Monad m] [Monad n] {α β γ δ σ τ ε ι : Type}

theorem Holds.bind {C : Correspondence m n} {f : α → β} {g : γ → δ} {p : m α} {q : n β} {r : α → m γ} {r' : β → n δ}
    (hp : C.Holds f p q) (hr : ∀ a, C.Holds g (r a) (r' (f a))) : C.Holds g (p >>= r) (q >>= r') :=
  C.holds_bind hp hr

/-! ### Correspondences of monads -/

/-- In one monad, a program does all that another does and then renames the result. -/
def results (m : Type → Type) [Monad m] [LawfulMonad m] : Correspondence m m where
  Holds f p q := q = f <$> p
  holds_pure f a := (map_pure f a).symm
  holds_bind := by
    rintro α β γ δ f g p q k l rfl hk
    simp only [bind_map_left, map_bind, hk]

/-- In a larger monad, a program does all that another does and then renames the result. -/
def lift (m n : Type → Type) [Monad m] [Monad n] [LawfulMonad m] [LawfulMonad n] [MonadLiftT m n]
    [LawfulMonadLiftT m n] : Correspondence m n where
  Holds f p q := q = f <$> (liftM p : n _)
  holds_pure f a := by rw [liftM_pure, map_pure]
  holds_bind := by
    rintro α β γ δ f g p q k l rfl hk
    simp only [liftM_bind, bind_map_left, map_bind, hk]

/-- Where a step is refused, the other one is refused with the renamed report. -/
def except (h : ε → ι) : Correspondence (Except ε) (Except ι) where
  Holds f x y := y = mapBoth h f x
  holds_pure _ _ := rfl
  holds_bind {_ _ _ _ _ _ x _ _ _} hx hk := by
    subst hx
    cases x with
    | error e => rfl
    | ok a => exact hk a

/-- From a renamed state, a program ends in a renamed state. -/
def stateT (C : Correspondence m n) (h : σ → τ) : Correspondence (StateT σ m) (StateT τ n) where
  Holds f p q := ∀ s, C.Holds (Prod.map f h) (p s) (q (h s))
  holds_pure f a s := C.holds_pure (Prod.map f h) (a, s)
  holds_bind hp hk s := (hp s).bind fun r => hk r.1 r.2

/-- Where a program stops at an error, the other one stops at the renamed error. -/
def exceptT (C : Correspondence m n) (h : ε → ι) : Correspondence (ExceptT ε m) (ExceptT ι n) where
  Holds f p q := C.Holds (mapBoth h f) p.run q.run
  holds_pure f a := C.holds_pure (mapBoth h f) (.ok a)
  holds_bind {_ _ _ _ _ g _ _ _ _} hp hk := hp.bind fun r =>
    match r with
    | .ok a => hk a
    | .error e => C.holds_pure (mapBoth h g) (.error e)

theorem holds_stateT_lift (C : Correspondence m n) (h : σ → τ) {f : α → β} {p : m α} {q : n β} (hp : C.Holds f p q) :
    (C.stateT h).Holds f (liftM p) (liftM q) := by
  intro s
  show C.Holds (Prod.map f h) (StateT.lift p s) (StateT.lift q (h s))
  exact hp.bind fun a => C.holds_pure (Prod.map f h) (a, s)

theorem holds_throw (C : Correspondence m n) (h : ε → ι) (f : α → β) (e : ε) :
    (C.exceptT h).Holds f (throw e) (throw (h e)) :=
  C.holds_pure (mapBoth h f) (.error e)

variable (C : Correspondence m n)

/-! ### Two programs, and many -/

theorem disj {h : σ → τ} {g k : Search m σ} {g' k' : Search n τ} {s : σ} (hg : C.Holds (List.map h) (g s) (g' (h s)))
    (hk : C.Holds (List.map h) (k s) (k' (h s))) :
    C.Holds (List.map h) (Search.disj g k s) (Search.disj g' k' (h s)) := by
  refine hg.bind fun left => hk.bind fun right => ?_
  rw [← List.map_append]
  exact C.holds_pure (List.map h) (left ++ right)

theorem holds_foldlM {e : α → β} {f : γ → δ} {p : γ → α → m γ} {q : δ → β → n δ}
    (hp : ∀ a x, C.Holds f (p a x) (q (f a) (e x))) (xs : List α) (a : γ) :
    C.Holds f (xs.foldlM p a) ((xs.map e).foldlM q (f a)) := by
  induction xs generalizing a with
  | nil => exact C.holds_pure f a
  | cons x xs ih =>
    rw [List.map_cons, List.foldlM_cons, List.foldlM_cons]
    exact (hp a x).bind ih

section

variable [LawfulMonad m] [LawfulMonad n]

theorem holds_exceptT_lift {f : α → β} {p : m α} {q : n β} (h : ε → ι) (hp : C.Holds f p q) :
    (C.exceptT h).Holds f (ExceptT.lift p) (ExceptT.lift q) := by
  show C.Holds (mapBoth h f) (Except.ok <$> p) (Except.ok <$> q)
  rw [map_eq_pure_bind, map_eq_pure_bind]
  exact hp.bind fun a => C.holds_pure (mapBoth h f) (.ok a)

theorem holds_mapM {e : α → β} {f : γ → δ} {p : α → m γ} {q : β → n δ} (hp : ∀ x, C.Holds f (p x) (q (e x)))
    (xs : List α) : C.Holds (List.map f) (xs.mapM p) ((xs.map e).mapM q) := by
  induction xs with
  | nil => simpa using C.holds_pure (List.map f) []
  | cons x xs ih =>
    rw [List.map_cons, List.mapM_cons, List.mapM_cons]
    exact (hp x).bind fun y => ih.bind fun ys => C.holds_pure (List.map f) (y :: ys)

/-! ### Searches -/

variable {h : σ → τ}

theorem each {g : Search m σ} {g' : Search n τ} (hg : ∀ s, C.Holds (List.map h) (g s) (g' (h s)))
    (states : List σ) : C.Holds (List.map h) (Search.each g states) (Search.each g' (states.map h)) := by
  refine (C.holds_mapM hg states).bind fun results => ?_
  rw [← List.map_flatten]
  exact C.holds_pure (List.map h) results.flatten

variable {π ρ : Type} {e : π → ρ} {run : π → Search m σ} {run' : ρ → Search n τ}

private theorem disjAll {gs : List (Goal π)}
    (hgs : ∀ g ∈ gs, ∀ s, C.Holds (List.map h) (g.search run s) ((g.map e).search run' (h s))) (s : σ) :
    C.Holds (List.map h) (Search.disjAll (Goal.searches run gs) s)
      (Search.disjAll (Goal.searches run' (Goal.mapAll e gs)) (h s)) := by
  induction gs with
  | nil =>
    rw [Goal.mapAll, Goal.searches, Goal.searches, Search.disjAll_nil, Search.disjAll_nil]
    exact C.holds_pure (List.map h) []
  | cons g gs ih =>
    rw [Goal.mapAll, Goal.searches, Goal.searches, Search.disjAll_cons, Search.disjAll_cons]
    exact C.disj (hgs g (List.mem_cons_self ..) s) (ih fun g hg => hgs g (List.mem_cons_of_mem _ hg))

private theorem levels {gs : List (Goal π)}
    (hgs : ∀ g ∈ gs, ∀ s, C.Holds (List.map h) (g.search run s) ((g.map e).search run' (h s)))
    (states : List σ) :
    C.Holds (List.map h) (Search.levels (Goal.searches run gs) states)
      (Search.levels (Goal.searches run' (Goal.mapAll e gs)) (states.map h)) := by
  induction gs generalizing states with
  | nil =>
    rw [Goal.mapAll, Goal.searches, Goal.searches, Search.levels_nil, Search.levels_nil]
    exact C.holds_pure (List.map h) states
  | cons g gs ih =>
    rw [Goal.mapAll, Goal.searches, Goal.searches, Search.levels_cons, Search.levels_cons]
    exact (C.each (hgs g (List.mem_cons_self ..)) states).bind
      (ih fun g hg => hgs g (List.mem_cons_of_mem _ hg))

/-- If the primitive goals correspond, so do all goals over them. -/
theorem search (hrun : ∀ p s, C.Holds (List.map h) (run p s) (run' (e p) (h s))) (g : Goal π) (s : σ) :
    C.Holds (List.map h) (g.search run s) ((g.map e).search run' (h s)) := by
  induction g using Goal.ind generalizing s with
  | prim p => exact hrun p s
  | succeed => exact C.holds_pure (List.map h) [s]
  | fail => exact C.holds_pure (List.map h) []
  | disj g k ihg ihk => exact C.disj (ihg s) (ihk s)
  | conj g k ihg ihk => exact (ihg s).bind (C.each ihk)
  | disjAll gs ih => exact C.disjAll ih s
  | conjAll gs ih => exact C.levels ih [s]

end

end Correspondence

end RelLogic
