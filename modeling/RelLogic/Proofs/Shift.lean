import RelLogic.Proofs.Renaming
import RelLogic.Session.Call

/-!
# Acts from a later start

Two runs are compared, of which one draws its variables from a number that is `k` later than that of the other.  They
correspond if the later one gives the results of the other with the numbers of all variables raised by `k`, from states
that are `k` apart: it has the later supply, records renamed events and stops at renamed faults (`Act.shifted`,
`Build.shifted`).  There is one lemma for each function that evaluates a term, makes a goal or searches it, and each
of them says that two calls of the function correspond.  Only `Build.newVar_shift` looks at the supply, and only the
lemmas about lookups, walks and comparisons need that different variables stay different.
-/

namespace RelLogic

/-- The variable with its number raised. -/
def Var.shift (k : Nat) (x : Var) : Var :=
  { x with id := x.id + k }

theorem Var.shift_injective (k : Nat) : Function.Injective (shift k) := by
  rintro ⟨i, l⟩ ⟨j, m⟩ h
  simpa [shift] using h

variable {p : Var → Var} {k : Nat}

/-! ### Acts -/

def Fault.rename (p : Var → Var) : Fault → Fault
  | .shape e => .shape (e.rename p)
  | .unknownName name => .unknownName name
  | .notAVariable found => .notAVariable (found.rename p)
  | .badTemplate text => .badTemplate text

def Progress.shift (k : Nat) (st : Progress) : Progress :=
  ⟨st.supply.shift k, st.fault?.map (Fault.rename (Var.shift k))⟩

/-- An act corresponds to one that is ahead by `k` variables. -/
abbrev Act.shifted (k : Nat) : Correspondence Act Act :=
  (Traced.renamed (Var.shift k)).stateT (Progress.shift k)

/-- The same for acts that may stop at a fault. -/
abbrev Build.shifted (k : Nat) : Correspondence Build Build :=
  (Act.shifted k).exceptT (Fault.rename (Var.shift k))

section

variable {α β : Type} {f : α → β}

theorem Act.note_shift (e : Fault) :
    (Act.shifted k).Holds id (Act.note e) (Act.note (e.rename (Var.shift k))) := by
  rintro ⟨supply, fault?⟩ past
  cases fault? <;> rfl

namespace Build

theorem lift_shift {q : Traced α} {q' : Traced β} (h : (Traced.renamed (Var.shift k)).Holds f q q') :
    (Build.shifted k).Holds f (liftM q) (liftM q') :=
  (Act.shifted k).holds_exceptT_lift _ ((Traced.renamed (Var.shift k)).holds_stateT_lift _ h)

theorem draw_shift {q : Fresh α} {q' : Fresh β} (h : (Fresh.shifted k).Holds f q q') :
    (Build.shifted k).Holds f (draw q) (draw q') := by
  refine (Act.shifted k).holds_exceptT_lift _ fun st past => ?_
  have hrun : q' (st.supply.shift k) = Prod.map f (Supply.shift k) (q st.supply) := h st.supply
  show Act.draw q' _ _ = Prod.map _ _ <$> Act.draw q st past
  simp only [Act.draw, Progress.shift, hrun]
  rfl

theorem attempt_shift {q : Fresh? α} {q' : Fresh? β} (h : (Fresh?.shifted k).Holds f q q') :
    (Build.shifted k).Holds f (attempt q) (attempt q') := by
  refine (Act.shifted k).holds_exceptT_lift _ fun st past => ?_
  have hrun : q' (st.supply.shift k) = (q st.supply).map (Prod.map f (Supply.shift k)) := h st.supply
  show Act.attempt q' _ _ = Prod.map _ _ <$> Act.attempt q st past
  simp only [Act.attempt, Progress.shift, hrun]
  cases q st.supply <;> rfl

theorem ofOption_shift {a? : Option α} {b? : Option β} (h : b? = a?.map f) :
    (Build.shifted k).Holds f (ofOption a?) (ofOption b?) := by
  refine (Act.shifted k).holds_exceptT_lift _ fun st past => ?_
  subst h
  cases a? <;> rfl

theorem newVar_shift (label : String) : (Build.shifted k).Holds (Var.shift k) (newVar label) (newVar label) := by
  refine (Act.shifted k).holds_exceptT_lift _ fun st past => ?_
  -- the two supplies are as far apart after the draw as before it
  have hnext : st.supply.nextVar + k + 1 = st.supply.nextVar + 1 + k := by omega
  show Act.newVar label _ _ = Prod.map _ _ <$> Act.newVar label st past
  simp [Act.newVar, Var.fresh, Progress.shift, Supply.shift, hnext, Var.shift, Event.rename]

theorem throw_shift (e : Fault) :
    (Build.shifted k).Holds f (throw e) (throw (e.rename (Var.shift k))) :=
  (Act.shifted k).holds_throw (Fault.rename (Var.shift k)) f e

theorem ofExcept_shift {r : Except ShapeError α} {r' : Except ShapeError β}
    (h : (ShapeError.renamed (Var.shift k)).Holds f r r') : (Build.shifted k).Holds f (ofExcept r) (ofExcept r') := by
  obtain rfl : r' = mapBoth (ShapeError.rename (Var.shift k)) f r := h
  cases r with
  | ok a => exact (Build.shifted k).holds_pure f a
  | error e => exact throw_shift (.shape e)

end Build

end

/-! ### Term expressions -/

theorem lookup_map_snd {α β γ : Type} [BEq α] (f : β → γ) (entries : List (α × β)) (a : α) :
    (entries.map fun e => (e.1, f e.2)).lookup a = (entries.lookup a).map f := by
  induction entries with
  | nil => rfl
  | cons e entries ih =>
    rw [List.map_cons, List.lookup_cons, List.lookup_cons, ih]
    split <;> rfl

def Scope.rename (p : Var → Var) (scope : Scope) : Scope :=
  ⟨scope.terms.map fun e => (e.1, e.2.rename p), scope.stores.map fun e => (e.1, e.2.rename p)⟩

namespace Scope

theorem rename_addTerm (scope : Scope) (name : String) (t : Term) :
    (scope.addTerm name t).rename p = (scope.rename p).addTerm name (t.rename p) := rfl

theorem rename_addStore (scope : Scope) (name : String) (s : Subst) :
    (scope.addStore name s).rename p = (scope.rename p).addStore name (s.rename p) := rfl

theorem term_shift (scope : Scope) (name : String) :
    (Build.shifted k).Holds (Term.rename (Var.shift k)) (scope.term name)
      ((scope.rename (Var.shift k)).term name) := by
  rw [term, term, rename, lookup_map_snd]
  cases scope.terms.lookup name with
  | none => exact Build.throw_shift (.unknownName name)
  | some t => exact (Build.shifted k).holds_pure (Term.rename (Var.shift k)) t

theorem store_shift (scope : Scope) (name? : Option String) :
    (Build.shifted k).Holds (Subst.rename (Var.shift k)) (scope.store name?)
      ((scope.rename (Var.shift k)).store name?) := by
  cases name? with
  | none => exact (Build.shifted k).holds_pure (Subst.rename (Var.shift k)) Subst.empty
  | some name =>
    rw [store, store, rename]
    dsimp only
    rw [lookup_map_snd]
    cases scope.stores.lookup name with
    | none => exact Build.throw_shift (.unknownName name)
    | some s => exact (Build.shifted k).holds_pure (Subst.rename (Var.shift k)) s

end Scope

theorem Term.part?_rename (part : Part) (t : Term) :
    (t.rename p).part? part = mapBoth (ShapeError.rename p) (rename p) (t.part? part) := by
  cases t with
  | pair i a d => cases part <;> rfl
  | _ => rfl

theorem Term.variable_shift (t : Term) :
    (Build.shifted k).Holds (Var.shift k) t.variable (t.rename (Var.shift k)).variable := by
  cases t with
  | var x => exact (Build.shifted k).holds_pure (Var.shift k) x
  | _ => exact Build.throw_shift (.notAVariable _)

namespace TermExpr

mutual

theorem eval_shift (scope : Scope) :
    (e : TermExpr) → (Build.shifted k).Holds (Term.rename (Var.shift k)) (e.eval scope)
      (e.eval (scope.rename (Var.shift k)))
  | .nil => (Build.shifted k).holds_pure (Term.rename (Var.shift k)) .nil
  | .atom a => Build.draw_shift (Term.ofAtom_rename a)
  | .name n => scope.term_shift n
  | .chain items rest =>
    (evalAfter_shift scope [] items).bind fun xs =>
      (eval_shift scope rest).bind fun t => Build.draw_shift (Term.chain_rename xs t)
  | .range first stop => Build.draw_shift (Term.ofAtoms_rename (Atom.range first stop))
  | .copies count item =>
    (eval_shift scope item).bind fun x => by
      rw [← List.map_replicate]
      exact Build.draw_shift (Term.ofList_rename (List.replicate count.toNat x))
  | .wrapped depth core => (eval_shift scope core).bind fun t => Build.draw_shift (Term.wrap_rename depth.toNat t)
  | .part p whole => (eval_shift scope whole).bind fun t => Build.ofExcept_shift (Term.part?_rename p t)
  | .lookup store x =>
    (scope.store_shift store).bind fun s => (eval_shift scope x).bind fun t =>
      t.variable_shift.bind fun v => Build.ofOption_shift (s.lookup?_rename (Var.shift_injective k) v)
  | .walk store e =>
    (scope.store_shift store).bind fun s => (eval_shift scope e).bind fun t =>
      Build.ofOption_shift (s.walk?_rename (Var.shift_injective k) t)
  | .resolve store e =>
    (scope.store_shift store).bind fun s => (eval_shift scope e).bind fun t =>
      Build.attempt_shift (s.resolve?_rename (Var.shift_injective k) t)

theorem evalAfter_shift (scope : Scope) (made : List Term) :
    (es : List TermExpr) → (Build.shifted k).Holds (List.map (Term.rename (Var.shift k))) (evalAfter scope made es)
      (evalAfter (scope.rename (Var.shift k)) (made.map (Term.rename (Var.shift k))) es)
  | [] => by
    rw [evalAfter, evalAfter, ← List.map_reverse]
    exact (Build.shifted k).holds_pure (List.map (Term.rename (Var.shift k))) made.reverse
  | e :: es => (eval_shift scope e).bind fun t => evalAfter_shift scope (t :: made) es

end

theorem evalAll_shift (scope : Scope) (es : List TermExpr) :
    (Build.shifted k).Holds (List.map (Term.rename (Var.shift k))) (evalAll scope es)
      (evalAll (scope.rename (Var.shift k)) es) :=
  evalAfter_shift scope [] es

theorem evalVar_shift (scope : Scope) (e : TermExpr) :
    (Build.shifted k).Holds (Var.shift k) (evalVar scope e) (evalVar (scope.rename (Var.shift k)) e) :=
  (eval_shift scope e).bind Term.variable_shift

theorem evalVars_shift (scope : Scope) (es : List TermExpr) :
    (Build.shifted k).Holds (List.map (Var.shift k)) (es.mapM (evalVar scope))
      (es.mapM (evalVar (scope.rename (Var.shift k)))) := by
  simpa using (Build.shifted k).holds_mapM (e := id) (evalVar_shift scope) es

end TermExpr

/-! ### Goal expressions -/

def Call.rename (p : Var → Var) (c : Call) : Call :=
  { c with args := c.args.map (Term.rename p) }

def Literal.rename (p : Var → Var) : Literal → Literal
  | .eq e => .eq (e.rename p)
  | .call c => .call (c.rename p)

def Names.rename (p : Var → Var) (names : Names) : Names :=
  ⟨names.scope.rename p, names.goals.map fun e => (e.1, e.2.map (Literal.rename p))⟩

def Env.rename (p : Var → Var) (env : Env) : Env :=
  { env with names := env.names.rename p }

namespace Goal

theorem map_map {π ρ τ : Type} (f : π → ρ) (f' : ρ → τ) (g : Goal π) : (g.map f).map f' = g.map (f' ∘ f) := by
  have hall : ∀ gs : List (Goal π), (∀ g ∈ gs, (g.map f).map f' = g.map (f' ∘ f)) →
      mapAll f' (mapAll f gs) = mapAll (f' ∘ f) gs := by
    intro gs hgs
    rw [mapAll_eq_map, mapAll_eq_map, mapAll_eq_map, List.map_map]
    exact List.map_congr_left hgs
  induction g using Goal.ind with
  | disj g h ihg ihh => simp only [map, ihg, ihh]
  | conj g h ihg ihh => simp only [map, ihg, ihh]
  | disjAll gs ih => simp only [map, hall gs ih]
  | conjAll gs ih => simp only [map, hall gs ih]
  | _ => rfl

theorem map_disjChain {π ρ : Type} (f : π → ρ) (gs : List (Goal π)) :
    (disjChain gs).map f = disjChain (gs.map (map f)) := by
  induction gs with
  | nil => rfl
  | cons g gs ih =>
    cases gs with
    | nil => rfl
    | cons h gs => simp only [disjChain, map, ih, List.map_cons]

theorem map_conjChain {π ρ : Type} (f : π → ρ) (gs : List (Goal π)) :
    (conjChain gs).map f = conjChain (gs.map (map f)) := by
  induction gs with
  | nil => rfl
  | cons g gs ih =>
    cases gs with
    | nil => rfl
    | cons h gs => simp only [conjChain, map, ih, List.map_cons]

theorem ofEquations_rename (g : Goal Equation) :
    (g.map (Equation.rename p)).ofEquations = g.ofEquations.map (Literal.rename p) := by
  rw [ofEquations, ofEquations, map_map, map_map]
  rfl

theorem pure_shift (g : Goal Literal) :
    (Build.shifted k).Holds (map (Literal.rename (Var.shift k))) (pure g) (pure (g.map (Literal.rename (Var.shift k)))) :=
  (Build.shifted k).holds_pure (map (Literal.rename (Var.shift k))) g

/-- A relation of lists makes renamed goals of renamed lists. -/
theorem ofExcept_shift {r r' : Except ShapeError (Goal Equation)}
    (h : (ShapeError.renamed (Var.shift k)).Holds (map (Equation.rename (Var.shift k))) r r') :
    (Build.shifted k).Holds (map (Literal.rename (Var.shift k)))
      (do let g ← Build.ofExcept r; return g.ofEquations) (do let g ← Build.ofExcept r'; return g.ofEquations) :=
  (Build.ofExcept_shift h).bind fun g => by
    rw [ofEquations_rename]
    exact pure_shift g.ofEquations

end Goal

namespace Env

theorem bindFresh_shift (env : Env) (name : String) :
    (Build.shifted k).Holds (rename (Var.shift k)) (env.bindFresh name)
      ((env.rename (Var.shift k)).bindFresh name) :=
  (Build.newVar_shift name).bind fun x => (Build.shifted k).holds_pure (rename (Var.shift k))
    { env with names := { env.names with scope := env.scope.addTerm name (.var x) } }

theorem goal_shift (env : Env) (name : String) :
    (Build.shifted k).Holds (Goal.map (Literal.rename (Var.shift k))) (env.goal name)
      ((env.rename (Var.shift k)).goal name) := by
  rw [goal, goal, rename, Names.rename]
  dsimp only
  rw [lookup_map_snd]
  cases env.names.goals.lookup name with
  | none => exact Build.throw_shift (.unknownName name)
  | some g => exact Goal.pure_shift g

theorem bindAll_shift (env : Env) (names : List String) :
    (Build.shifted k).Holds (rename (Var.shift k)) (names.foldlM bindFresh env)
      (names.foldlM bindFresh (env.rename (Var.shift k))) := by
  simpa using (Build.shifted k).holds_foldlM (e := id) bindFresh_shift names env

end Env

namespace GoalExpr

mutual

theorem build_shift (env : Env) :
    (g : GoalExpr) → (Build.shifted k).Holds (Goal.map (Literal.rename (Var.shift k))) (g.build env)
      (g.build (env.rename (Var.shift k)))
  | .succeed => Goal.pure_shift .succeed
  | .fail => Goal.pure_shift .fail
  | .eq u v =>
    (u.eval_shift env.scope).bind fun s => (v.eval_shift env.scope).bind fun t =>
      Goal.pure_shift (.prim (.eq ⟨s, t⟩))
  | .disj g h => (build_shift env g).bind fun a => (build_shift env h).bind fun b => Goal.pure_shift (.disj a b)
  | .conj g h => (build_shift env g).bind fun a => (build_shift env h).bind fun b => Goal.pure_shift (.conj a b)
  | .disjAll gs =>
    (buildAll_shift env gs).bind fun goals => by
      rw [← Goal.mapAll_eq_map]
      exact Goal.pure_shift (.disjAll goals)
  | .conjAll gs =>
    (buildAll_shift env gs).bind fun goals => by
      rw [← Goal.mapAll_eq_map]
      exact Goal.pure_shift (.conjAll goals)
  | .disjChain gs =>
    (buildAll_shift env gs).bind fun goals => by
      rw [← Goal.map_disjChain]
      exact Goal.pure_shift (.disjChain goals)
  | .conjChain gs =>
    (buildAll_shift env gs).bind fun goals => by
      rw [← Goal.map_conjChain]
      exact Goal.pure_shift (.conjChain goals)
  | .member e list =>
    (e.eval_shift env.scope).bind fun t =>
      (list.eval_shift env.scope).bind fun l => Goal.ofExcept_shift (Goal.member_rename t l)
  | .common e₁ e₂ =>
    (e₁.eval_shift env.scope).bind fun l₁ => (e₂.eval_shift env.scope).bind fun l₂ =>
      (Build.newVar_shift "v").bind fun x => Goal.ofExcept_shift (Goal.common_rename x l₁ l₂)
  | .commonOf e e₁ e₂ =>
    (e.evalVar_shift env.scope).bind fun x => (e₁.eval_shift env.scope).bind fun l₁ =>
      (e₂.eval_shift env.scope).bind fun l₂ => Goal.ofExcept_shift (Goal.common_rename x l₁ l₂)
  | .fresh names body =>
    (env.bindAll_shift names).bind fun env' => (buildAll_shift env' body).bind fun goals => by
      rw [← Goal.map_conjChain]
      exact Goal.pure_shift (.conjChain goals)
  | .saved name => env.goal_shift name
  | .call name args =>
    (TermExpr.evalAll_shift env.scope args).bind fun terms =>
      Goal.pure_shift (.prim (.call ⟨name, terms, env.moment⟩))

theorem buildAll_shift (env : Env) :
    (gs : List GoalExpr) → (Build.shifted k).Holds (List.map (Goal.map (Literal.rename (Var.shift k))))
      (buildAll env gs) (buildAll (env.rename (Var.shift k)) gs)
  | [] => (Build.shifted k).holds_pure (List.map (Goal.map (Literal.rename (Var.shift k)))) []
  | g :: gs =>
    (build_shift env g).bind fun a => (buildAll_shift env gs).bind fun goals =>
      (Build.shifted k).holds_pure (List.map (Goal.map (Literal.rename (Var.shift k)))) (a :: goals)

end

end GoalExpr

/-! ### Calls -/

def History.rename (p : Var → Var) (history : History) : History :=
  { history with moments := history.moments.map (Names.rename p) }

theorem History.names_rename (history : History) (moment : Nat) :
    (history.rename p).names moment = (history.names moment).rename p := by
  rw [names, names, rename, Array.getElem?_map]
  cases history.moments[moment]? <;> rfl

theorem History.relation_shift (history : History) (name : String) :
    (Build.shifted k).Holds id (history.relation name) ((history.rename (Var.shift k)).relation name) := by
  rw [relation, relation, rename]
  cases history.relations.lookup name with
  | none => exact Build.throw_shift (.unknownName name)
  | some r => exact (Build.shifted k).holds_pure id r

namespace Call

theorem scope_rename (history : History) (c : Call) (r : Relation) :
    (c.rename p).scope (history.rename p) r = (c.scope history r).rename p := by
  rw [scope, scope, rename, History.names_rename, List.zip_map_right, List.foldl_map]
  exact List.foldl_hom (Scope.rename p) fun scope b => (scope.rename_addTerm b.1 b.2).symm

theorem env_rename (history : History) (c : Call) (r : Relation) :
    (c.rename p).env (history.rename p) r = (c.env history r).rename p := by
  rw [env, env, scope_rename, rename, History.names_rename]
  rfl

theorem build_shift (history : History) (c : Call) :
    (Build.shifted k).Holds (Goal.map (Literal.rename (Var.shift k))) (c.build history)
      ((c.rename (Var.shift k)).build (history.rename (Var.shift k))) :=
  (history.relation_shift c.relation).bind fun r => by
    rw [id, env_rename]
    exact r.body.build_shift (c.env history r)

end Call

theorem Literal.search_shift (history : History) (fuel : Nat) (l : Literal) (s : Subst) :
    (Act.shifted k).Holds (List.map (Subst.rename (Var.shift k))) (Literal.search history fuel l s)
      (Literal.search (history.rename (Var.shift k)) fuel (l.rename (Var.shift k)) (s.rename (Var.shift k))) := by
  have heq : ∀ n e s, (Act.shifted k).Holds (List.map (Subst.rename (Var.shift k)))
      (liftM (Equation.search n e s)) (liftM ((e.rename (Var.shift k)).search n (s.rename (Var.shift k)))) :=
    fun n e s => (Traced.renamed (Var.shift k)).holds_stateT_lift _ (e.search_rename (Var.shift_injective k) n s)
  induction fuel generalizing l s with
  | zero =>
    cases l with
    | eq e => exact heq 0 e s
    | call c => exact fun _ _ => rfl
  | succ n ih =>
    cases l with
    | eq e => exact heq (n + 1) e s
    | call c =>
      refine (Act.shifted k).holds_bind (c.build_shift history) fun built => ?_
      cases built with
      | ok g => exact (Act.shifted k).search ih g s
      | error e => exact (Act.note_shift e).bind fun _ => (Act.shifted k).holds_pure (List.map _) []

end RelLogic
