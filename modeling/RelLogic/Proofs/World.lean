import Mathlib.Data.Set.Insert
import Mathlib.Logic.Relation
import RelLogic.Proofs.Occurrence

/-!
# What there is at a moment

A world is what there is at a moment of a run: the supply, the variables that have been drawn from it, and the terms,
substitutions and goals that have been made so far.  An operation takes what there is already and makes something more
of it (`World.Step`), and may draw from the supply.  So a run is a sequence of operations, in whatever order and on
whatever there is.

In every world that operations lead to from the empty one, the numbers of all variables that occur are below the number
of the next variable (`World.Below.reaches`).  A variable that is drawn then differs from all of them, whatever its
label, and no substitution binds it (`World.Below.fresh`).  Every variable that has been drawn was drawn in such a world
(`World.Reaches.exists_of_drawn`).
-/

namespace RelLogic

/-- The supply, the variables drawn from it, the latest first, and what has been made. -/
structure World where
  supply : Supply
  drawn : List Var
  terms : Set Term
  stores : Set Subst
  goals : Set (Goal Literal)

namespace World

/-- The world in which nothing has been made yet. -/
def start (σ : Supply) : World :=
  ⟨σ, [], ∅, ∅, ∅⟩

def addTerm (w : World) (t : Term) : World :=
  { w with terms := insert t w.terms }

def addStore (w : World) (s : Subst) : World :=
  { w with stores := insert s w.stores }

def addGoal (w : World) (g : Goal Literal) : World :=
  { w with goals := insert g w.goals }

/-- The world after a term was made with what was drawn from the supply. -/
def draw (w : World) (r : Term × Supply) : World :=
  { w.addTerm r.1 with supply := r.2 }

/-- The world after a variable was drawn from its supply. -/
def drawVar (w : World) (label : String) : World :=
  { w.draw (Prod.map Term.var id (Var.fresh label w.supply)) with drawn := (Var.fresh label w.supply).1 :: w.drawn }

/-! ### Operations -/

/-- One operation on what there is. -/
inductive Step (w : World) : World → Prop
  | newVar (label : String) : Step w (w.drawVar label)
  | nil : Step w (w.addTerm .nil)
  | atom (a : Atom) : Step w (w.draw (Term.ofAtom a w.supply))
  | cons {a d : Term} (ha : a ∈ w.terms) (hd : d ∈ w.terms) : Step w (w.draw (Term.cons a d w.supply))
  | part {p : Part} {t u : Term} (ht : t ∈ w.terms) (h : t.part? p = .ok u) : Step w (w.addTerm u)
  | walk {s : Subst} {t u : Term} (hs : s ∈ w.stores) (ht : t ∈ w.terms) (h : s.walk? t = some u) :
      Step w (w.addTerm u)
  | lookup {s : Subst} {x : Var} {u : Term} (hs : s ∈ w.stores) (hx : .var x ∈ w.terms) (h : s.lookup? x = some u) :
      Step w (w.addTerm u)
  | get {s : Subst} {x : Var} {u : Term} (hs : s ∈ w.stores) (hx : .var x ∈ w.terms) (h : s.get? x = some u) :
      Step w (w.addTerm u)
  | resolve {s : Subst} {t : Term} {r : Term × Supply} (hs : s ∈ w.stores) (ht : t ∈ w.terms)
      (h : s.resolve? t w.supply = some r) : Step w (w.draw r)
  | empty : Step w (w.addStore .empty)
  | extend {s : Subst} {x : Var} {t : Term} (hs : s ∈ w.stores) (hx : .var x ∈ w.terms) (ht : t ∈ w.terms) :
      Step w (w.addStore (s.extend x t))
  | unify {s s' : Subst} {u v : Term} {fuel : Nat} {o : Outcome} (hs : s ∈ w.stores) (hu : u ∈ w.terms)
      (hv : v ∈ w.terms) (h : unify? fuel u v s = some o) (ho : o.store? = some s') : Step w (w.addStore s')
  /-- An equation of terms, or the call of a relation for terms. -/
  | primitive {l : Literal} (hl : ∀ t ∈ l.terms, t ∈ w.terms) : Step w (w.addGoal (.prim l))
  /-- Success, failure, and conjunctions and disjunctions of goals. -/
  | combine {g : Goal Literal} (hg : ∀ l, g ≠ .prim l) (hparts : ∀ h ∈ g.parts, h ∈ w.goals) : Step w (w.addGoal g)
  | member {t l : Term} {g : Goal Equation} (ht : t ∈ w.terms) (hl : l ∈ w.terms) (h : Goal.member t l = .ok g) :
      Step w (w.addGoal g.ofEquations)
  | common {x : Var} {l₁ l₂ : Term} {g : Goal Equation} (hx : .var x ∈ w.terms) (h₁ : l₁ ∈ w.terms)
      (h₂ : l₂ ∈ w.terms) (h : Goal.common x l₁ l₂ = .ok g) : Step w (w.addGoal g.ofEquations)
  /-- A goal is applied by applying the goals that it is put together from. -/
  | goalPart {g h : Goal Literal} (hg : g ∈ w.goals) (hh : h ∈ g.parts) : Step w (w.addGoal h)
  /-- A primitive goal is applied to its terms. -/
  | goalTerm {l : Literal} {t : Term} (hl : .prim l ∈ w.goals) (ht : t ∈ l.terms) : Step w (w.addTerm t)

/-- Operations lead from the first world to the second. -/
def Reaches : World → World → Prop :=
  Relation.ReflTransGen Step

/-! ### What there is stays -/

/-- All that there is in the first world is in the second. -/
structure Le (w w' : World) : Prop where
  drawn : w.drawn ⊆ w'.drawn
  terms : w.terms ⊆ w'.terms
  stores : w.stores ⊆ w'.stores
  goals : w.goals ⊆ w'.goals

variable {w w' w'' : World}

theorem Le.refl (w : World) : w.Le w :=
  ⟨List.Subset.refl _, subset_rfl, subset_rfl, subset_rfl⟩

theorem Le.trans (h : w.Le w') (h' : w'.Le w'') : w.Le w'' :=
  ⟨List.Subset.trans h.drawn h'.drawn, Set.Subset.trans h.terms h'.terms, Set.Subset.trans h.stores h'.stores,
    Set.Subset.trans h.goals h'.goals⟩

theorem Step.le (h : Step w w') : w.Le w' := by
  cases h <;> constructor <;> simp [addTerm, addStore, addGoal, draw, drawVar]

theorem Reaches.le (h : w.Reaches w') : w.Le w' := by
  induction h with
  | refl => exact Le.refl w
  | tail _ hstep ih => exact ih.trans hstep.le

/-- Operations that draw nothing lead from the first world to the second. -/
structure Quiet (w w' : World) : Prop where
  reaches : w.Reaches w'
  supply : w'.supply = w.supply
  drawn : w'.drawn = w.drawn

namespace Quiet

theorem refl (w : World) : w.Quiet w :=
  ⟨.refl, rfl, rfl⟩

theorem trans (h : w.Quiet w') (h' : w'.Quiet w'') : w.Quiet w'' :=
  ⟨h.reaches.trans h'.reaches, h'.supply.trans h.supply, h'.drawn.trans h.drawn⟩

theorem le (h : w.Quiet w') : w.Le w' :=
  h.reaches.le

theorem addTerm {t : Term} (h : w.Step (w.addTerm t)) : w.Quiet (w.addTerm t) :=
  ⟨.single h, rfl, rfl⟩

theorem addStore {s : Subst} (h : w.Step (w.addStore s)) : w.Quiet (w.addStore s) :=
  ⟨.single h, rfl, rfl⟩

theorem addGoal {g : Goal Literal} (h : w.Step (w.addGoal g)) : w.Quiet (w.addGoal g) :=
  ⟨.single h, rfl, rfl⟩

end Quiet

/-! ### Variables that occur -/

/-- All variables that occur in what there is are in the set. -/
structure Over (R : Set Var) (w : World) : Prop where
  terms : ∀ t ∈ w.terms, t.Over R
  stores : ∀ s ∈ w.stores, s.Over R
  goals : ∀ g ∈ w.goals, g.Over R

variable {R R' : Set Var}

namespace Over

theorem mono (h : w.Over R) (hR : R ⊆ R') : w.Over R' :=
  ⟨fun t ht => (h.terms t ht).mono hR, fun s hs => (h.stores s hs).mono hR, fun g hg => (h.goals g hg).mono hR⟩

theorem addTerm (h : w.Over R) {t : Term} (ht : t.Over R) : (w.addTerm t).Over R :=
  ⟨Set.forall_mem_insert.2 ⟨ht, h.terms⟩, h.stores, h.goals⟩

theorem addStore (h : w.Over R) {s : Subst} (hs : s.Over R) : (w.addStore s).Over R :=
  ⟨h.terms, Set.forall_mem_insert.2 ⟨hs, h.stores⟩, h.goals⟩

theorem addGoal (h : w.Over R) {g : Goal Literal} (hg : g.Over R) : (w.addGoal g).Over R :=
  ⟨h.terms, h.stores, Set.forall_mem_insert.2 ⟨hg, h.goals⟩⟩

theorem draw (h : w.Over R) {r : Term × Supply} (hr : r.1.Over R) : (w.draw r).Over R :=
  ⟨(h.addTerm hr).terms, h.stores, h.goals⟩

end Over

end World

/-- The variables with numbers below that of the next variable. -/
def Supply.below (σ : Supply) : Set Var :=
  {x | x.id < σ.nextVar}

theorem Term.nextVar_consAll (met : List Term) (t : Term) (σ : Supply) :
    (consAll met t σ).2.nextVar = σ.nextVar := by
  induction met generalizing t σ with
  | nil => rfl
  | cons x met ih => exact ih _ _

/-- Resolving draws no variables. -/
theorem Subst.nextVar_resolve? {s : Subst} {t r : Term} {σ σ' : Supply} (h : s.resolve? t σ = some (r, σ')) :
    σ'.nextVar = σ.nextVar := by
  have hafter : ∀ budget met t r σ σ', s.resolveAfter budget met t σ = some (r, σ') → σ'.nextVar = σ.nextVar := by
    intro budget met t r σ σ' h
    induction budget, met, t using resolveAfter_ind (s := s) generalizing r σ σ' with
    | leaf budget met t u ht hu hleaf =>
      rw [resolveAfter_of_leaf ht hu hleaf] at h
      obtain rfl : (Term.consAll met u σ).2 = σ' := congrArg Prod.snd (Option.some.inj h)
      exact Term.nextVar_consAll met u σ
    | pair budget met i a d iha ihd =>
      rw [resolveAfter_pair, Option.bind_eq_some_iff] at h
      obtain ⟨⟨a', σ₁⟩, ha, hd⟩ := h
      exact (ihd a' r σ₁ σ' hd).trans (iha a' σ σ₁ ha)
    | enter n met x i a d hx ih =>
      rw [resolveAfter_of_pair hx] at h
      exact ih r σ σ' h
    | stuck budget met x hx =>
      rw [resolveAfter_of_stuck hx] at h
      contradiction
  exact hafter _ _ _ _ _ _ h

namespace World

variable {w w' : World}

/-- The numbers of all variables that occur are below the number of the next variable. -/
def Below (w : World) : Prop :=
  w.Over w.supply.below

theorem below_start (σ : Supply) : (start σ).Below :=
  ⟨nofun, nofun, nofun⟩

theorem Step.below (h : Step w w') (hw : w.Below) : w'.Below := by
  cases h with
  | newVar label =>
    -- the new variable is the only one with its number
    have hnext : w.supply.below ⊆ (Var.fresh label w.supply).2.below := fun x hx => Nat.lt_succ_of_lt hx
    have hdraw := (hw.mono hnext).draw (r := Prod.map Term.var id (Var.fresh label w.supply))
      (Term.over_var.2 (Nat.lt_succ_self _))
    exact ⟨hdraw.terms, hdraw.stores, hdraw.goals⟩
  | nil => exact hw.addTerm Term.over_nil
  | atom a => exact hw.draw Term.over_atom
  | cons ha hd => exact hw.draw (Term.over_pair.2 ⟨hw.terms _ ha, hw.terms _ hd⟩)
  | part ht h => exact hw.addTerm ((hw.terms _ ht).part? h)
  | walk hs ht h => exact hw.addTerm ((hw.stores _ hs).walk? (hw.terms _ ht) h)
  | lookup hs hx h => exact hw.addTerm ((hw.stores _ hs).lookup? (Term.over_var.1 (hw.terms _ hx)) h)
  | get hs _ h => exact hw.addTerm ((hw.stores _ hs).get? h)
  | @resolve s t r hs ht h =>
    have hnext : (w.draw r).supply.below = w.supply.below := by
      show {x | _ < r.2.nextVar} = _
      rw [Subst.nextVar_resolve? h]
      rfl
    rw [Below, hnext]
    exact hw.draw ((hw.stores s hs).resolve? (hw.terms t ht) h)
  | empty => exact hw.addStore Subst.over_empty
  | extend hs hx ht =>
    exact hw.addStore (Subst.over_extend.2 ⟨⟨Term.over_var.1 (hw.terms _ hx), hw.terms _ ht⟩, hw.stores _ hs⟩)
  | unify hs hu hv h ho => exact hw.addStore ((hw.stores _ hs).unify? (hw.terms _ hu) (hw.terms _ hv) h ho)
  | primitive hl => exact hw.addGoal (Goal.over_prim.2 fun t ht => hw.terms t (hl t ht))
  | combine hg hparts => exact hw.addGoal (Goal.over_of_parts hg fun h hh => hw.goals h (hparts h hh))
  | member ht hl h => exact hw.addGoal (Goal.over_of_member (hw.terms _ ht) (hw.terms _ hl) h)
  | common hx h₁ h₂ h =>
    exact hw.addGoal (Goal.over_of_common (Term.over_var.1 (hw.terms _ hx)) (hw.terms _ h₁) (hw.terms _ h₂) h)
  | goalPart hg hh => exact hw.addGoal ((hw.goals _ hg).part hh)
  | goalTerm hl ht => exact hw.addTerm (Goal.over_prim.1 (hw.goals _ hl) _ ht)

/-- Whatever operations are carried out, the numbers of all variables that occur stay below that of the next one. -/
theorem Below.reaches (hw : w.Below) (h : w.Reaches w') : w'.Below := by
  induction h with
  | refl => exact hw
  | tail _ hstep ih => exact hstep.below ih

/-- No variable that occurs in what there is has the number of the variable, and no substitution binds it. -/
structure IsNew (w : World) (x : Var) : Prop where
  terms : ∀ t ∈ w.terms, ∀ y ∈ t.vars, y.id ≠ x.id
  stores : ∀ s ∈ w.stores, ∀ y ∈ s.vars, y.id ≠ x.id
  goals : ∀ g ∈ w.goals, ∀ y ∈ g.vars, y.id ≠ x.id
  unbound : ∀ s ∈ w.stores, s.get? x = none

/-- The next variable is new, whatever its label. -/
theorem Below.fresh (hw : w.Below) (label : String) : w.IsNew (Var.fresh label w.supply).1 := by
  have hne : ∀ y ∈ w.supply.below, y.id ≠ (Var.fresh label w.supply).1.id := fun _ hy => Nat.ne_of_lt hy
  have hnew : (Var.fresh label w.supply).1 ∉ w.supply.below := fun h => hne _ h rfl
  constructor
  · exact fun t ht y hy => hne y (hw.terms t ht y hy)
  · exact fun s hs y hy => hne y (hw.stores s hs y hy)
  · exact fun g hg y hy => hne y (hw.goals g hg y hy)
  · exact fun s hs => (hw.stores s hs).get?_eq_none hnew

/-- A variable that has been drawn on the way was drawn in a world on the way, as its next variable. -/
theorem Reaches.exists_of_drawn {x : Var} (h : w.Reaches w') (hx : x ∈ w'.drawn) :
    x ∈ w.drawn ∨ ∃ w₀ label, w.Reaches w₀ ∧ (w₀.drawVar label).Reaches w' ∧ x = (Var.fresh label w₀.supply).1 := by
  induction h with
  | refl => exact .inl hx
  | @tail w₁ w₂ hreaches hstep ih =>
    have hold : x ∈ w₁.drawn → x ∈ w.drawn ∨
        ∃ w₀ label, w.Reaches w₀ ∧ (w₀.drawVar label).Reaches w₂ ∧ x = (Var.fresh label w₀.supply).1 := by
      intro hx
      obtain hx | ⟨w₀, label, hw₀, hw₁, hx⟩ := ih hx
      · exact .inl hx
      · exact .inr ⟨w₀, label, hw₀, hw₁.tail hstep, hx⟩
    cases hstep with
    | newVar label =>
      rcases List.mem_cons.1 hx with hx | hx
      · exact .inr ⟨w₁, label, hreaches, .refl, hx⟩
      · exact hold hx
    | _ => exact hold hx

end World

end RelLogic
