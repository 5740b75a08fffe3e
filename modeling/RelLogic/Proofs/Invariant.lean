import RelLogic.Proofs.Binding
import RelLogic.Proofs.Clause
import RelLogic.Proofs.Search
import RelLogic.Session.Call

/-!
# What searches keep

A property of states that holds of every result of a search, once it holds of the state from which the search began,
is kept by the search.  All ways to combine searches keep what their parts keep.  So what unification keeps is kept by
every goal of a session (`Goal.search_keeps`), however the goal was made, whatever it draws and records on its way, and
also where it calls relations whose bodies are made while it runs.
-/

namespace RelLogic

variable {α β σ π : Type}

/-! ### Results of acts -/

namespace Act

/-- Whatever the act gives has the property. -/
def Gives (p : Act α) (P : α → Prop) : Prop :=
  ∀ st past a st' past', p st past = some ((a, st'), past') → P a

theorem bind_apply (p : Act α) (f : α → Act β) (st : Progress) (past : List Event) :
    (p >>= f) st past = (p st past).bind fun r => f r.1.1 r.1.2 r.2 := rfl

theorem lift_apply (p : Traced α) (st : Progress) (past : List Event) :
    (liftM p : Act α) st past = (p past).bind fun r => some ((r.1, st), r.2) := rfl

theorem gives_pure {a : α} {P : α → Prop} (ha : P a) : Gives (pure a) P := by
  intro st past b st' past' h
  have h' : some ((a, st), past) = some ((b, st'), past') := h
  obtain ⟨⟨rfl, -⟩, -⟩ : (a = b ∧ st = st') ∧ past = past' := by simpa using h'
  exact ha

theorem Gives.bind {p : Act α} {f : α → Act β} {P : α → Prop} {Q : β → Prop} (hp : p.Gives P)
    (hf : ∀ a, P a → (f a).Gives Q) : (p >>= f).Gives Q := by
  intro st past b st' past' h
  rw [bind_apply, Option.bind_eq_some_iff] at h
  obtain ⟨⟨⟨a, st₁⟩, past₁⟩, ha, hb⟩ := h
  exact hf a (hp st past a st₁ past₁ ha) st₁ past₁ b st' past' hb

theorem gives_true (p : Act α) : p.Gives fun _ => True :=
  fun _ _ _ _ _ _ => trivial

end Act

/-! ### Combining searches -/

namespace Search

/-- Every result of the search has the property if the state at its beginning has it. -/
def Keeps (P : σ → Prop) (g : Search Act σ) : Prop :=
  ∀ s, P s → (g s).Gives fun results => ∀ r ∈ results, P r

variable {P : σ → Prop}

theorem gives_append {p q : Act (List σ)} (hp : p.Gives fun results => ∀ r ∈ results, P r)
    (hq : q.Gives fun results => ∀ r ∈ results, P r) :
    (do
      let left ← p
      let right ← q
      return left ++ right : Act (List σ)).Gives fun results => ∀ r ∈ results, P r := by
  refine hp.bind fun left hleft => hq.bind fun right hright => Act.gives_pure fun r hr => ?_
  rcases List.mem_append.1 hr with h | h
  · exact hleft r h
  · exact hright r h

theorem Keeps.each {g : Search Act σ} (hg : g.Keeps P) {states : List σ} (hstates : ∀ s ∈ states, P s) :
    (Search.each g states).Gives fun results => ∀ r ∈ results, P r := by
  induction states with
  | nil =>
    rw [each_nil]
    exact Act.gives_pure nofun
  | cons first states ih =>
    rw [each_cons]
    exact gives_append (hg first (hstates first (List.mem_cons_self ..)))
      (ih fun s hs => hstates s (List.mem_cons_of_mem _ hs))

theorem Keeps.disj {g h : Search Act σ} (hg : g.Keeps P) (hh : h.Keeps P) : (Search.disj g h).Keeps P :=
  fun s hs => gives_append (hg s hs) (hh s hs)

theorem Keeps.conj {g h : Search Act σ} (hg : g.Keeps P) (hh : h.Keeps P) : (Search.conj g h).Keeps P :=
  fun s hs => (hg s hs).bind fun _ hstates => hh.each hstates

theorem keeps_disjAll {gs : List (Search Act σ)} (hgs : ∀ g ∈ gs, g.Keeps P) : (disjAll gs).Keeps P := by
  induction gs with
  | nil =>
    rw [disjAll_nil]
    exact fun _ _ => Act.gives_pure nofun
  | cons g gs ih =>
    rw [disjAll_cons]
    exact (hgs g (List.mem_cons_self ..)).disj (ih fun g hg => hgs g (List.mem_cons_of_mem _ hg))

theorem gives_levels {gs : List (Search Act σ)} (hgs : ∀ g ∈ gs, g.Keeps P) {states : List σ}
    (hstates : ∀ s ∈ states, P s) : (levels gs states).Gives fun results => ∀ r ∈ results, P r := by
  induction gs generalizing states with
  | nil =>
    rw [levels_nil]
    exact Act.gives_pure hstates
  | cons g gs ih =>
    rw [levels_cons]
    refine ((hgs g (List.mem_cons_self ..)).each hstates).bind fun next hnext => ?_
    exact ih (fun g hg => hgs g (List.mem_cons_of_mem _ hg)) hnext

theorem keeps_conjAll {gs : List (Search Act σ)} (hgs : ∀ g ∈ gs, g.Keeps P) : (conjAll gs).Keeps P :=
  fun _ hs => gives_levels hgs (List.forall_mem_singleton.2 hs)

end Search

/-! ### Goals -/

namespace Goal

/-- What all primitive goals keep, every goal over them keeps. -/
theorem search_keeps_of_prim {P : σ → Prop} {run : π → Search Act σ} (hrun : ∀ p, (run p).Keeps P) (g : Goal π) :
    (g.search run).Keeps P := by
  induction g using Goal.ind with
  | prim p => exact hrun p
  | succeed => exact fun s hs => Act.gives_pure (List.forall_mem_singleton.2 hs)
  | fail => exact fun _ _ => Act.gives_pure nofun
  | disj g h ihg ihh => exact ihg.disj ihh
  | conj g h ihg ihh => exact ihg.conj ihh
  | disjAll gs ih =>
    rw [search, searches_eq_map]
    exact Search.keeps_disjAll (List.forall_mem_map.2 ih)
  | conjAll gs ih =>
    rw [search, searches_eq_map]
    exact Search.keeps_conjAll (List.forall_mem_map.2 ih)

end Goal

/-- Every unification that succeeds keeps the property. -/
def KeptByUnify (P : Subst → Prop) : Prop :=
  ∀ {fuel u v s events s'}, unify? fuel u v s = some ⟨events, some s'⟩ → P s → P s'

variable {P : Subst → Prop}

theorem keptByUnify_of_canBind (hP : ∀ {s x t}, s.CanBind x t → P s → P (s.extend x t)) : KeptByUnify P :=
  fun h hs => (solves_of_solve? h).keeps hP hs rfl

theorem Equation.search_keeps (hP : KeptByUnify P) (fuel : Nat) (e : Equation) :
    Search.Keeps P fun s => (liftM (e.search fuel s) : Act (List Subst)) := by
  intro s hs st past results st' past' h r hr
  have h : (liftM (e.search fuel s) : Act (List Subst)) st past = some ((results, st'), past') := h
  rw [Act.lift_apply, Option.bind_eq_some_iff] at h
  obtain ⟨⟨found, past₁⟩, hfound, heq⟩ := h
  obtain ⟨⟨rfl, -⟩, -⟩ : (found = results ∧ st = st') ∧ past₁ = past' := by simpa using heq
  unfold Equation.search at hfound
  split at hfound
  · rename_i o ho
    obtain ⟨rfl, -⟩ : o.store?.toList = found ∧ _ := by simpa using hfound
    obtain ⟨events, last?⟩ := o
    obtain rfl : last? = some r := by simpa using hr
    exact hP ho hs
  · contradiction

theorem Literal.search_keeps (hP : KeptByUnify P) (history : History) (fuel : Nat) (l : Literal) :
    (Literal.search history fuel l).Keeps P := by
  induction fuel generalizing l with
  | zero =>
    cases l with
    | eq e => exact e.search_keeps hP 0
    | call c => exact fun s _ st past results st' past' h => by cases h
  | succ fuel ih =>
    cases l with
    | eq e => exact e.search_keeps hP (fuel + 1)
    | call c =>
      -- the body is made first, and it is then a goal whose calls have less fuel
      intro s hs
      rw [Literal.search]
      refine (Act.gives_true _).bind fun body _ => ?_
      cases body with
      | ok g => exact Goal.search_keeps_of_prim ih g s hs
      | error f => exact (Act.gives_true _).bind fun _ _ => Act.gives_pure nofun

/-- What unification keeps, every goal of a session keeps. -/
theorem Goal.search_keeps (hP : KeptByUnify P) (history : History) (fuel : Nat) (g : Goal Literal) :
    (g.search (Literal.search history fuel)).Keeps P :=
  Goal.search_keeps_of_prim (Literal.search_keeps hP history fuel) g

end RelLogic
