import RelLogic.Proofs.Correspondence
import RelLogic.Proofs.Enumeration
import RelLogic.Proofs.Resolution
import RelLogic.Session.Answer
import RelLogic.Template

/-!
# Renaming variables

Renaming puts another variable, with a number and a label of its own, in the place of each variable of a term, and so
of everything that is made of terms.  If different variables are renamed to different ones, this can be done before or
after everything that the program does with terms: a lookup compares variables for equality only (`Subst.get?_rename`),
walks and moves are made of lookups and of comparisons of terms (`Subst.walk?_rename`, `Move.of_rename`), and unifying,
resolving and searching are made of these.

Programs that draw numbers or record events are compared by correspondences.  Resolving draws serial numbers only, so
it makes no difference either where the numbers of variables start (`Supply.shift`).
-/

namespace RelLogic

variable {p : Var → Var}

/-! ### Terms -/

namespace Term

/-- The term with every variable renamed. -/
def rename (p : Var → Var) : Term → Term
  | .nil => .nil
  | .atom i a => .atom i a
  | .var x => .var (p x)
  | .pair i a d => .pair i (a.rename p) (d.rename p)

theorem rename_injective (hp : Function.Injective p) : Function.Injective (rename p) := by
  intro t u h
  induction t generalizing u with
  | pair i a d iha ihd =>
    cases u with
    | pair j b e =>
      obtain ⟨rfl, ha, hd⟩ : i = j ∧ a.rename p = b.rename p ∧ d.rename p = e.rename p := by simpa [rename] using h
      rw [iha ha, ihd hd]
    | _ => simp [rename] at h
  | var x =>
    cases u with
    | var y =>
      obtain rfl : x = y := hp (by simpa [rename] using h)
      rfl
    | _ => simp [rename] at h
  | _ => cases u <;> simp_all [rename]

theorem rename_leftInverse {q : Var → Var} (hq : Function.LeftInverse q p) :
    Function.LeftInverse (rename q) (rename p) := by
  intro t
  induction t with
  | var x => rw [rename, rename, hq x]
  | pair i a d iha ihd => rw [rename, rename, iha, ihd]
  | _ => rfl

theorem bare_rename (t : Term) : (t.rename p).bare = t.bare.rename p := by
  induction t with
  | pair i a d iha ihd => rw [rename, bare, iha, ihd, bare, rename]
  | _ => rfl

theorem same_rename (hp : Function.Injective p) (t u : Term) : (t.rename p).same (u.rename p) = t.same u := by
  rw [Bool.eq_iff_iff, same_iff, same_iff, bare_rename, bare_rename, (rename_injective hp).eq_iff]

theorem comparison_rename (hp : Function.Injective p) (t u : Term) :
    (t.rename p).comparison (u.rename p) = t.comparison u := by
  rw [comparison, comparison, same_rename hp]
  simp only [(rename_injective hp).eq_iff]

@[simp] theorem isPair_rename (t : Term) : (t.rename p).isPair = t.isPair := by
  cases t <;> rfl

end Term

/-- The report with every variable renamed. -/
def ShapeError.rename (p : Var → Var) : ShapeError → ShapeError
  | .notAPair part t => .notAPair part (t.rename p)
  | .improperList t => .improperList (t.rename p)

theorem Term.spine_rename (t : Term) : (t.rename p).spine = (t.spine.1.map (rename p), t.spine.2.rename p) := by
  induction t with
  | pair i a d _ ih => rw [rename, spine_pair, spine_pair, ih, List.map_cons]
  | _ => rfl

theorem Term.items?_rename (t : Term) :
    (t.rename p).items? = mapBoth (ShapeError.rename p) (List.map (rename p)) t.items? := by
  rw [items?, items?, spine_rename]
  rcases t.spine with ⟨items, rest⟩
  cases rest <;> rfl

/-! ### Substitutions -/

namespace Subst

/-- The substitution with every variable renamed, those that are bound and those in the terms. -/
def rename (p : Var → Var) (s : Subst) : Subst :=
  ⟨s.bindings.map fun b => (p b.1, b.2.rename p), s.size⟩

variable (s : Subst)

@[simp] theorem size_rename : (s.rename p).size = s.size := rfl

theorem length_bindings_rename : (s.rename p).bindings.length = s.bindings.length :=
  List.length_map _

theorem rename_leftInverse {q : Var → Var} (hq : Function.LeftInverse q p) :
    Function.LeftInverse (rename q) (rename p) := by
  intro s
  have hbinding : ∀ b : Var × Term, (q (p b.1), (b.2.rename p).rename q) = b := by
    intro b
    rw [hq, Term.rename_leftInverse hq]
  simp [rename, Function.comp_def, hbinding]

theorem rename_extend (x : Var) (t : Term) : (s.extend x t).rename p = (s.rename p).extend (p x) (t.rename p) := rfl

theorem replaces_rename (hp : Function.Injective p) : Replaces p (Term.rename p) where
  inj := hp
  var _ := rfl
  other t ht := by cases t <;> exact ht

theorem get?_rename (hp : Function.Injective p) (x : Var) :
    (s.rename p).get? (p x) = (s.get? x).map (Term.rename p) :=
  get?_map (replaces_rename hp) rfl x

theorem walk?_rename (hp : Function.Injective p) (t : Term) :
    (s.rename p).walk? (t.rename p) = (s.walk? t).map (Term.rename p) :=
  walk?_map (replaces_rename hp) rfl t

theorem lookup?_rename (hp : Function.Injective p) (x : Var) :
    (s.rename p).lookup? (p x) = (s.lookup? x).map (Term.rename p) := by
  rw [lookup?, lookup?, get?_rename s hp]
  cases s.get? x with
  | none => rfl
  | some t => exact walk?_rename s hp t

theorem same_rename (hp : Function.Injective p) (r : Subst) : (s.rename p).same (r.rename p) = s.same r := by
  rw [same, same, size_rename, size_rename, rename, List.all_map]
  congr 2
  funext b
  rw [Function.comp_apply, get?_rename r hp]
  cases r.get? b.1 with
  | none => rfl
  | some t => exact Term.same_rename hp t b.2

end Subst

/-! ### Unifying -/

def Equation.rename (p : Var → Var) (e : Equation) : Equation :=
  ⟨e.lhs.rename p, e.rhs.rename p⟩

def Event.rename (p : Var → Var) : Event → Event
  | .created x => .created (p x)
  | .extended x t => .extended (p x) (t.rename p)
  | .clash u v => .clash (u.rename p) (v.rename p)
  | .solutions n => .solutions n

def Move.rename (p : Var → Var) : Move → Move
  | .agree => .agree
  | .bind x t => .bind (p x) (t.rename p)
  | .split cars cdrs => .split (cars.rename p) (cdrs.rename p)
  | .clash => .clash

def Outcome.rename (p : Var → Var) (o : Outcome) : Outcome :=
  ⟨o.events.map (Event.rename p), o.store?.map (Subst.rename p)⟩

theorem Event.rename_leftInverse {q : Var → Var} (hq : Function.LeftInverse q p) :
    Function.LeftInverse (rename q) (rename p) := by
  intro e
  cases e <;> simp only [rename, hq _, Term.rename_leftInverse hq _]

theorem Outcome.rename_leftInverse {q : Var → Var} (hq : Function.LeftInverse q p) :
    Function.LeftInverse (rename q) (rename p) := by
  intro o
  have hevents := (Event.rename_leftInverse hq).list_map o.events
  have hstore : (o.store?.map (Subst.rename p)).map (Subst.rename q) = o.store? := by
    rw [Option.map_map, (Subst.rename_leftInverse hq).comp_eq_id, Option.map_id]
    rfl
  rw [rename, rename, hevents, hstore]

theorem Move.of_rename (hp : Function.Injective p) (u v : Term) :
    Move.of (u.rename p) (v.rename p) = (Move.of u v).rename p := by
  by_cases h : u = v
  · rw [h, of_self, of_self]
    rfl
  · have h' : u.rename p ≠ v.rename p := (Term.rename_injective hp).ne h
    simp only [of, h, h', if_false]
    cases u <;> cases v
    case atom.atom i a j b => by_cases hab : a = b <;> simp [Term.rename, hab, rename]
    all_goals rfl

theorem solve?_rename (hp : Function.Injective p) (fuel : Nat) (s : Subst) (pending : List Equation) :
    solve? fuel (s.rename p) (pending.map (Equation.rename p)) = (solve? fuel s pending).map (Outcome.rename p) := by
  induction fuel generalizing s pending with
  | zero => cases pending <;> rfl
  | succ n ih =>
    cases pending with
    | nil => rfl
    | cons e rest =>
      have hl := s.walk?_rename hp e.lhs
      have hr := s.walk?_rename hp e.rhs
      rw [List.map_cons, solve?, solve?, Equation.rename, hl, hr]
      cases s.walk? e.lhs with
      | none => rfl
      | some u =>
        cases s.walk? e.rhs with
        | none => rfl
        | some v =>
          simp only [Option.map_some, Move.of_rename hp]
          cases Move.of u v with
          | agree => exact ih s rest
          | bind x t =>
            have hlater := ih (s.extend x t) rest
            simp only [Move.rename, ← Subst.rename_extend, hlater, Option.map_map]
            rfl
          | split cars cdrs => exact ih s (cars :: cdrs :: rest)
          | clash => rfl

theorem unify?_rename (hp : Function.Injective p) (fuel : Nat) (u v : Term) (s : Subst) :
    unify? fuel (u.rename p) (v.rename p) (s.rename p) = (unify? fuel u v s).map (Outcome.rename p) :=
  solve?_rename hp fuel s [⟨u, v⟩]

/-! ### Drawing from a supply -/

/-- The supply of which the variables are numbered from a later number on. -/
def Supply.shift (k : Nat) (σ : Supply) : Supply :=
  { σ with nextVar := σ.nextVar + k }

/-- From a supply that is ahead by `k` variables a program draws the same, and gives the renamed result. -/
abbrev Fresh.shifted (k : Nat) : Correspondence Fresh Fresh :=
  (Correspondence.results Id).stateT (Supply.shift k)

/-- The same for programs that may have no result: they have none from either supply. -/
abbrev Fresh?.shifted (k : Nat) : Correspondence Fresh? Fresh? :=
  (Correspondence.results Option).stateT (Supply.shift k)

variable {k : Nat}

theorem Fresh.total_shifted {α β : Type} {f : α → β} {q : Fresh α} {q' : Fresh β}
    (h : (Fresh.shifted k).Holds f q q') : (Fresh?.shifted k).Holds f (Fresh.total q) (Fresh.total q') :=
  fun σ => congrArg some (h σ)

namespace Term

theorem cons_rename (a d : Term) :
    (Fresh.shifted k).Holds (rename p) (cons a d) (cons (a.rename p) (d.rename p)) :=
  fun _ => rfl

theorem consAll_rename (items : List Term) (t : Term) :
    (Fresh.shifted k).Holds (rename p) (consAll items t) (consAll (items.map (rename p)) (t.rename p)) := by
  induction items generalizing t with
  | nil => exact (Fresh.shifted k).holds_pure (rename p) t
  | cons x items ih => exact (cons_rename x t).bind ih

theorem chain_rename (items : List Term) (t : Term) :
    (Fresh.shifted k).Holds (rename p) (chain items t) (chain (items.map (rename p)) (t.rename p)) := by
  rw [chain, chain, ← List.map_reverse]
  exact consAll_rename items.reverse t

theorem ofList_rename (items : List Term) :
    (Fresh.shifted k).Holds (rename p) (ofList items) (ofList (items.map (rename p))) :=
  chain_rename items .nil

theorem ofAtom_rename (a : Atom) : (Fresh.shifted k).Holds (rename p) (ofAtom a) (ofAtom a) :=
  fun _ => rfl

theorem atomsAfter_rename (made : List Term) (values : List Atom) :
    (Fresh.shifted k).Holds (List.map (rename p)) (atomsAfter made values)
      (atomsAfter (made.map (rename p)) values) := by
  induction values generalizing made with
  | nil =>
    rw [atomsAfter, atomsAfter, ← List.map_reverse]
    exact (Fresh.shifted k).holds_pure (List.map (rename p)) made.reverse
  | cons a values ih => exact (ofAtom_rename a).bind fun t => ih (t :: made)

theorem ofAtoms_rename (values : List Atom) : (Fresh.shifted k).Holds (rename p) (ofAtoms values) (ofAtoms values) :=
  (atomsAfter_rename [] values).bind ofList_rename

theorem wrap_rename (n : Nat) (t : Term) :
    (Fresh.shifted k).Holds (rename p) (wrap n t) (wrap n (t.rename p)) := by
  induction n generalizing t with
  | zero => exact (Fresh.shifted k).holds_pure (rename p) t
  | succ n ih => exact (cons_rename t .nil).bind ih

end Term

/-- A template is filled with renamed terms in the same way. -/
theorem Template.fill?_rename (template : Template) (items : List Term) :
    (Fresh.shifted k).Holds (Option.map (Term.rename p)) (fill? items template)
      (fill? (items.map (Term.rename p)) template) := by
  induction template with
  | nil => exact (Fresh.shifted k).holds_pure (Option.map (Term.rename p)) (some .nil)
  | item n =>
    rw [fill?, fill?, List.getElem?_map]
    exact (Fresh.shifted k).holds_pure (Option.map (Term.rename p)) items[n]?
  | pair a d iha ihd =>
    refine iha.bind fun car? => ihd.bind fun cdr? => ?_
    cases car? with
    | none => exact (Fresh.shifted k).holds_pure (Option.map (Term.rename p)) none
    | some car =>
      cases cdr? with
      | none => exact (Fresh.shifted k).holds_pure (Option.map (Term.rename p)) none
      | some cdr =>
        exact (Term.cons_rename car cdr).bind fun t =>
          (Fresh.shifted k).holds_pure (Option.map (Term.rename p)) (some t)

namespace Subst

variable {s : Subst}

theorem resolveAfter_rename (hp : Function.Injective p) (budget : Nat) (met : List Term) (t : Term) :
    (Fresh?.shifted k).Holds (Term.rename p) (s.resolveAfter budget met t)
      ((s.rename p).resolveAfter budget (met.map (Term.rename p)) (t.rename p)) := by
  have hwalk : ∀ {t u}, s.walk? t = some u → (s.rename p).walk? (t.rename p) = some (u.rename p) := by
    intro t u hu
    rw [walk?_rename s hp, hu, Option.map_some]
  induction budget, met, t using resolveAfter_ind (s := s) with
  | leaf budget met t u ht hu hleaf =>
    rw [resolveAfter_of_leaf ht hu hleaf,
      resolveAfter_of_leaf (by rwa [Term.isPair_rename]) (hwalk hu) (by rwa [Term.isPair_rename])]
    exact Fresh.total_shifted (Term.consAll_rename met u)
  | pair budget met i a d iha ihd =>
    rw [Term.rename, resolveAfter, resolveAfter]
    exact iha.bind ihd
  | enter n met x i a d hx ih =>
    rw [Term.rename, resolveAfter_of_pair hx, resolveAfter_of_pair (hwalk hx)]
    exact ih
  | stuck budget met x hx =>
    intro σ
    have hstuck : ∀ u, (s.rename p).walk? (.var (p x)) = some u → u.isPair = true ∧ budget = 0 := by
      intro u hu
      obtain ⟨u, hux, rfl⟩ : ∃ u', s.walk? (.var x) = some u' ∧ u'.rename p = u := by
        rw [← Option.map_eq_some_iff, ← walk?_rename s hp]
        exact hu
      rw [Term.isPair_rename]
      exact hx u hux
    rw [Term.rename, resolveAfter_of_stuck hx, resolveAfter_of_stuck hstuck]
    rfl

theorem resolve?_rename (hp : Function.Injective p) (t : Term) :
    (Fresh?.shifted k).Holds (Term.rename p) (s.resolve? t) ((s.rename p).resolve? (t.rename p)) := by
  rw [resolve?, resolve?, length_bindings_rename]
  exact resolveAfter_rename hp s.bindings.length [] t

end Subst

/-! ### Goals -/

/-- Renaming comes before or after the reading of a list, and its report is renamed as well. -/
abbrev ShapeError.renamed (p : Var → Var) : Correspondence (Except ShapeError) (Except ShapeError) :=
  Correspondence.except (ShapeError.rename p)

/-- A program gives renamed results and records renamed events. -/
abbrev Traced.renamed (p : Var → Var) : Correspondence Traced Traced :=
  (Correspondence.results Option).stateT (List.map (Event.rename p))

def Clause.rename (p : Var → Var) : Clause → Clause
  | .eq u v => .eq (u.rename p) (v.rename p)
  | .member t list => .member (t.rename p) (list.rename p)
  | .common x l₁ l₂ => .common (p x) (l₁.rename p) (l₂.rename p)

namespace Goal

theorem member_rename (t list : Term) :
    (ShapeError.renamed p).Holds (map (Equation.rename p)) (member t list)
      (member (t.rename p) (list.rename p)) := by
  refine (ShapeError.renamed p).holds_bind list.items?_rename fun items => ?_
  have hitems : (disjAll ((items.map (Term.rename p)).map fun item => prim ⟨t.rename p, item⟩)) =
      (disjAll (items.map fun item => prim ⟨t, item⟩)).map (Equation.rename p) := by
    rw [map, mapAll_eq_map, List.map_map, List.map_map]
    rfl
  rw [hitems]
  exact (ShapeError.renamed p).holds_pure _ _

theorem common_rename (x : Var) (l₁ l₂ : Term) :
    (ShapeError.renamed p).Holds (map (Equation.rename p)) (common x l₁ l₂)
      (common (p x) (l₁.rename p) (l₂.rename p)) :=
  (member_rename (.var x) l₁).bind fun g₁ =>
    (member_rename (.var x) l₂).bind fun g₂ =>
      (ShapeError.renamed p).holds_pure (map (Equation.rename p)) (.conj g₁ g₂)

theorem clause_rename (c : Clause) :
    (ShapeError.renamed p).Holds (map (Equation.rename p)) c.goal (c.rename p).goal := by
  cases c with
  | eq u v => rfl
  | member t list => exact member_rename t list
  | common x l₁ l₂ => exact common_rename x l₁ l₂

theorem expandAll_map {π ρ π' ρ' : Type} {C : Correspondence (Except ShapeError) (Except ShapeError)} {e : π → π'}
    {e' : ρ → ρ'} {f : π → Except ShapeError (Goal ρ)} {f' : π' → Except ShapeError (Goal ρ')} {gs : List (Goal π)}
    (hgs : ∀ g ∈ gs, C.Holds (map e') (g.expand f) ((g.map e).expand f')) :
    C.Holds (mapAll e') (expandAll f gs) (expandAll f' (mapAll e gs)) := by
  induction gs with
  | nil => exact C.holds_pure (mapAll e') []
  | cons g gs ih =>
    obtain ⟨hg, hrest⟩ := List.forall_mem_cons.1 hgs
    exact hg.bind fun g' => (ih hrest).bind fun gs' => C.holds_pure (mapAll e') (g' :: gs')

/-- If the goals in place of the primitive goals correspond, so do the goals made with them. -/
theorem expand_map {π ρ π' ρ' : Type} {C : Correspondence (Except ShapeError) (Except ShapeError)} {e : π → π'}
    {e' : ρ → ρ'} {f : π → Except ShapeError (Goal ρ)} {f' : π' → Except ShapeError (Goal ρ')}
    (hf : ∀ p, C.Holds (map e') (f p) (f' (e p))) (g : Goal π) :
    C.Holds (map e') (g.expand f) ((g.map e).expand f') := by
  induction g using Goal.ind with
  | prim p => exact hf p
  | succeed => exact C.holds_pure (map e') .succeed
  | fail => exact C.holds_pure (map e') .fail
  | disj g h ihg ihh =>
    exact ihg.bind fun g' => ihh.bind fun h' => C.holds_pure (map e') (.disj g' h')
  | conj g h ihg ihh =>
    exact ihg.bind fun g' => ihh.bind fun h' => C.holds_pure (map e') (.conj g' h')
  | disjAll gs ih => exact (expandAll_map ih).bind fun gs' => C.holds_pure (map e') (.disjAll gs')
  | conjAll gs ih => exact (expandAll_map ih).bind fun gs' => C.holds_pure (map e') (.conjAll gs')

theorem expand_rename (g : Goal Clause) :
    (g.map (Clause.rename p)).expand Clause.goal =
      mapBoth (ShapeError.rename p) (map (Equation.rename p)) (g.expand Clause.goal) :=
  expand_map (C := ShapeError.renamed p) clause_rename g

end Goal

theorem Equation.search_rename (hp : Function.Injective p) (fuel : Nat) (e : Equation) (s : Subst) :
    (Traced.renamed p).Holds (List.map (Subst.rename p)) (e.search fuel s) ((e.rename p).search fuel (s.rename p)) := by
  intro past
  show (e.rename p).search fuel (s.rename p) (past.map (Event.rename p)) = _
  rw [search, search, rename, unify?_rename hp]
  cases unify? fuel e.lhs e.rhs s with
  | none => rfl
  | some o =>
    obtain ⟨events, store?⟩ := o
    cases store? <;> simp [Outcome.rename]

theorem Goal.solutions_rename (hp : Function.Injective p) (fuel : Nat) (g : Goal Equation) (s : Subst) :
    (Traced.renamed p).Holds (List.map (Subst.rename p)) (g.solutions fuel s)
      ((g.map (Equation.rename p)).solutions fuel (s.rename p)) :=
  (Traced.renamed p).search (Equation.search_rename hp fuel) g s

end RelLogic
