import RelLogic.Proofs.Invariant
import RelLogic.Proofs.Shift
import RelLogic.Session.Basic

/-!
# Sessions from a later start

In a session that draws its variables from a number `k` later than another one, all that can be seen is what can be
seen in the other, with the numbers of all variables raised by `k`: the answer to a command (`Session.answer_shift`),
the replies to a program and the state after it (`Session.respondAll_shift`).  A session whose first variable has the
number `n` is such a session, `n` later than one from zero on (`Session.startAt_eq_shift`).

Whether the hashes of two variables agree is sure only where the variables are equal, and depends for others on the
numbers that they happen to have.  So this one bit is taken out of the answers (`Answer.unhashed`).
-/

namespace RelLogic

variable {p : Var → Var} {k : Nat}

/-! ### Commands -/

def Solution.rename (p : Var → Var) (solution : Solution) : Solution :=
  ⟨solution.store.rename p, solution.resolved.map (Term.rename p), solution.lookedUp.map (Term.rename p)⟩

def Answer.rename (p : Var → Var) : Answer → Answer
  | .term t => .term (t.rename p)
  | .items ts => .items (ts.map (Term.rename p))
  | .vars equal order hashesAgree => .vars equal order hashesAgree
  | .terms c => .terms c
  | .atom equal asAtom => .atom equal asAtom
  | .atoms a b c hashesAgree self => .atoms (a.rename p) (b.rename p) c hashesAgree self
  | .pair t car cdr again self swapped => .pair (t.rename p) (car.rename p) (cdr.rename p) again self swapped
  | .store s => .store (s.rename p)
  | .binding t? s => .binding (t?.map (Term.rename p)) (s.rename p)
  | .stores equal converse left right => .stores equal converse left right
  | .unified s unchanged => .unified (s.rename p) unchanged
  | .clash => .clash
  | .goal g => .goal (g.map (Literal.rename p))
  | .solutions ss => .solutions (ss.map (Solution.rename p))
  | .numbers ns => .numbers ns

/-- The answer without whether the hashes of two variables agree, which is only sure where they are equal. -/
def Answer.unhashed : Answer → Answer
  | .vars equal order _ => .vars equal order equal
  | a => a

def Session.shift (k : Nat) (session : Session) : Session :=
  ⟨session.history.rename (Var.shift k), session.names.rename (Var.shift k), session.supply.shift k⟩

theorem Subst.record_shift (s : Subst) (x : Var) (t : Term) :
    (Build.shifted k).Holds (Subst.rename (Var.shift k)) (s.record x t)
      ((s.rename (Var.shift k)).record (x.shift k) (t.rename (Var.shift k))) :=
  Build.lift_shift fun _ => rfl

theorem Scope.extendBy_shift (scope : Scope) (s : Subst) (b : TermExpr × TermExpr) :
    (Build.shifted k).Holds (Subst.rename (Var.shift k)) (scope.extendBy s b)
      ((scope.rename (Var.shift k)).extendBy (s.rename (Var.shift k)) b) :=
  (b.1.evalVar_shift scope).bind fun x => (b.2.eval_shift scope).bind fun t => s.record_shift x t

theorem Scope.extendAllBy_shift (scope : Scope) (bs : List (TermExpr × TermExpr)) (s : Subst) :
    (Build.shifted k).Holds (Subst.rename (Var.shift k)) (bs.foldlM scope.extendBy s)
      (bs.foldlM (scope.rename (Var.shift k)).extendBy (s.rename (Var.shift k))) := by
  simpa using (Build.shifted k).holds_foldlM (e := id) scope.extendBy_shift bs s

theorem Subst.recordAll_shift (count : Nat) (xs : List Var) (ts : List Term) :
    (Build.shifted k).Holds (Subst.rename (Var.shift k))
      (((xs.zip ts).take count).foldlM (fun s b => s.record b.1 b.2) Subst.empty)
      ((((xs.map (Var.shift k)).zip (ts.map (Term.rename (Var.shift k)))).take count).foldlM
        (fun s b => s.record b.1 b.2) Subst.empty) := by
  rw [List.zip_map, ← List.map_take]
  exact (Build.shifted k).holds_foldlM (fun s b => s.record_shift b.1 b.2) ((xs.zip ts).take count) Subst.empty

theorem Report.tell_shift (scope : Scope) (report : Report) (s : Subst) :
    (Build.shifted k).Holds (Solution.rename (Var.shift k)) (report.tell scope s)
      (report.tell (scope.rename (Var.shift k)) (s.rename (Var.shift k))) := by
  have hresolve : ∀ ts : List Term, (Build.shifted k).Holds (List.map (Term.rename (Var.shift k)))
      (ts.mapM fun t => Build.attempt (s.resolve? t))
      ((ts.map (Term.rename (Var.shift k))).mapM fun t => Build.attempt ((s.rename (Var.shift k)).resolve? t)) :=
    (Build.shifted k).holds_mapM fun t => Build.attempt_shift (s.resolve?_rename (Var.shift_injective k) t)
  have hlookup : ∀ xs : List Var, (Build.shifted k).Holds (List.map (Term.rename (Var.shift k)))
      (xs.mapM fun x => Build.ofOption (s.lookup? x))
      ((xs.map (Var.shift k)).mapM fun x => Build.ofOption ((s.rename (Var.shift k)).lookup? x)) :=
    (Build.shifted k).holds_mapM fun x => Build.ofOption_shift (s.lookup?_rename (Var.shift_injective k) x)
  exact (TermExpr.evalAll_shift scope report.resolved).bind fun ts => (hresolve ts).bind fun resolved =>
    (TermExpr.evalVars_shift scope report.lookedUp).bind fun xs => (hlookup xs).bind fun lookedUp =>
      (Build.shifted k).holds_pure (Solution.rename (Var.shift k)) ⟨s, resolved, lookedUp⟩

theorem Report.tellAll_shift (scope : Scope) (report : Report) (found : List Subst) :
    (Build.shifted k).Holds (List.map (Solution.rename (Var.shift k))) (found.mapM (report.tell scope))
      ((found.map (Subst.rename (Var.shift k))).mapM (report.tell (scope.rename (Var.shift k)))) :=
  (Build.shifted k).holds_mapM (report.tell_shift scope) found

theorem Var.compare_shift (k : Nat) (x y : Var) : compare (x.shift k) (y.shift k) = compare x y := by
  have hid : compare (x.id + k) (y.id + k) = compare x.id y.id := by
    simp only [Nat.compare_eq_ite_lt, Nat.add_lt_add_iff_right]
  show (compare (x.id + k) (y.id + k)).then (compare x.label y.label) = _
  rw [hid]
  rfl

theorem Answer.unhashed_shift {q q' : Build Answer} (h : (Build.shifted k).Holds (rename (Var.shift k)) q q') :
    (Build.shifted k).Holds (rename (Var.shift k)) (unhashed <$> q) (unhashed <$> q') := by
  rw [map_eq_pure_bind, map_eq_pure_bind]
  refine h.bind fun a => ?_
  have hrename : (a.rename (Var.shift k)).unhashed = a.unhashed.rename (Var.shift k) := by cases a <;> rfl
  rw [hrename]
  exact (Build.shifted k).holds_pure (rename (Var.shift k)) a.unhashed

namespace Session

variable (session : Session)

theorem present_shift : (session.shift k).present = session.present.rename (Var.shift k) := by
  simp [present, shift, History.rename]

theorem build_shift (e : GoalExpr) :
    (Build.shifted k).Holds (Goal.map (Literal.rename (Var.shift k))) (e.build session.env)
      (e.build (session.shift k).env) := by
  have henv : (session.shift k).env = session.env.rename (Var.shift k) := by
    simp [env, shift, History.rename, Env.rename]
  rw [henv]
  exact e.build_shift session.env

theorem search_shift (fuel : Nat) (g : Goal Literal) (s : Subst) (recorded : Bool) :
    (Build.shifted k).Holds (List.map (Subst.rename (Var.shift k))) (session.search fuel g s recorded)
      ((session.shift k).search fuel (g.map (Literal.rename (Var.shift k))) (s.rename (Var.shift k)) recorded) := by
  have hgoal : (Build.shifted k).Holds (List.map (Subst.rename (Var.shift k)))
      (g.search (Literal.search session.present fuel) s : Act (List Subst))
      ((g.map (Literal.rename (Var.shift k))).search (Literal.search (session.shift k).present fuel)
        (s.rename (Var.shift k)) : Act (List Subst)) := by
    rw [present_shift]
    exact (Act.shifted k).holds_exceptT_lift _ ((Act.shifted k).search (Literal.search_shift session.present fuel) g s)
  have hstate : (Act.shifted k).Holds (Progress.shift k) get get := fun _ _ => rfl
  have hget : (Build.shifted k).Holds (Progress.shift k) (getThe Progress) (getThe Progress) :=
    (Act.shifted k).holds_exceptT_lift _ hstate
  have hrecord : ∀ n, (Build.shifted k).Holds id (Traced.record (.solutions n)) (Traced.record (.solutions n)) :=
    fun _ => Build.lift_shift fun _ => rfl
  refine hgoal.bind fun found => ?_
  cases recorded
  on_goal 2 =>
    rw [List.length_map]
    refine (hrecord found.length).bind fun _ => ?_
  all_goals
    refine hget.bind fun st => ?_
    obtain ⟨supply, fault?⟩ := st
    cases fault? with
    | some f => exact Build.throw_shift f
    | none => exact (Build.shifted k).holds_pure (List.map (Subst.rename (Var.shift k))) found

/-- All commands but the comparison of variables have the renamed answer. -/
theorem answer_shift_of_ne (fuel : Nat) (c : Command) (hc : ∀ e₁ e₂, c ≠ .compareVars e₁ e₂) :
    (Build.shifted k).Holds (Answer.rename (Var.shift k)) (session.answer fuel c)
      ((session.shift k).answer fuel c) := by
  have give := (Build.shifted k).holds_pure (Answer.rename (Var.shift k))
  cases c with
  | declare label => exact (Build.newVar_shift label).bind fun x => give (.term (.var x))
  | compareVars e₁ e₂ => exact (hc e₁ e₂ rfl).elim
  | term e => exact (e.eval_shift session.scope).bind fun t => give (.term t)
  | template text es =>
    refine (TermExpr.evalAll_shift session.scope es).bind fun items => ?_
    cases Template.ofString? text with
    | none => exact Build.throw_shift (.badTemplate text)
    | some template =>
      refine (Build.draw_shift (template.fill?_rename items)).bind fun t? => ?_
      cases t? with
      | none => exact Build.throw_shift (.badTemplate text)
      | some t => exact give (.term t)
  | items e =>
    exact (e.eval_shift session.scope).bind fun t =>
      (Build.ofExcept_shift t.items?_rename).bind fun ts => give (.items ts)
  | compareTerms e₁ e₂ =>
    refine (e₁.eval_shift session.scope).bind fun s => (e₂.eval_shift session.scope).bind fun t => ?_
    rw [Term.comparison_rename (Var.shift_injective k)]
    exact give (.terms (s.comparison t))
  | compareAtom e a =>
    refine (e.eval_shift session.scope).bind fun t => ?_
    cases t with
    | atom i b => exact give (.atom (decide (b = a)) (some (decide (b = a))))
    | _ => exact give (.atom false none)
  | compareAtoms a b =>
    have hatom : ∀ a, (Build.shifted k).Holds (Term.rename (Var.shift k)) (Build.draw (Term.ofAtom a))
        (Build.draw (Term.ofAtom a)) := fun a => Build.draw_shift (Term.ofAtom_rename a)
    refine (hatom a).bind fun s => (hatom b).bind fun t => ?_
    rw [Term.comparison_rename (Var.shift_injective k), Term.comparison_rename (Var.shift_injective k)]
    exact give (.atoms s t (s.comparison t) (hash a == hash b) (s.comparison s))
  | pair e₁ e₂ =>
    refine (e₁.eval_shift session.scope).bind fun a =>
      (e₂.eval_shift session.scope).bind fun d => (e₁.eval_shift session.scope).bind fun a' =>
        (e₂.eval_shift session.scope).bind fun d' => (Build.draw_shift (Term.cons_rename a d)).bind fun t => ?_
    simp only [Term.same_rename (Var.shift_injective k)]
    exact give (.pair t a d (a.same a' && d.same d') (a.same a && d.same d) (a.same d && d.same a))
  | extend store bindings report =>
    exact (session.scope.store_shift store).bind fun s =>
      (session.scope.extendAllBy_shift bindings s).bind fun s' =>
        (report.tell_shift session.scope s').bind fun solution => give (.store solution)
  | bindFirst count vars terms report =>
    exact (TermExpr.evalVars_shift session.scope vars).bind fun xs =>
      (TermExpr.evalAll_shift session.scope terms).bind fun ts => (Subst.recordAll_shift count xs ts).bind fun s =>
        (report.tell_shift session.scope s).bind fun solution => give (.store solution)
  | get store e =>
    refine (session.scope.store_shift store).bind fun s => (e.evalVar_shift session.scope).bind fun x => ?_
    rw [s.get?_rename (Var.shift_injective k)]
    exact give (.binding (s.get? x) s)
  | compareStores l r =>
    refine (session.scope.store_shift l).bind fun s => (session.scope.store_shift r).bind fun t => ?_
    simp only [Subst.same_rename _ (Var.shift_injective k)]
    exact give (.stores (s.same t) (t.same s) (s.same s) (t.same t))
  | unify e₁ e₂ store report =>
    refine (e₁.eval_shift session.scope).bind fun u =>
      (e₂.eval_shift session.scope).bind fun v => (session.scope.store_shift store).bind fun s =>
        (Build.lift_shift (Equation.search_rename (Var.shift_injective k) fuel ⟨u, v⟩ s)).bind fun found => ?_
    cases found with
    | nil => exact give .clash
    | cons s' others =>
      refine (report.tell_shift session.scope s').bind fun solution => ?_
      rw [Subst.same_rename _ (Var.shift_injective k)]
      exact give (.unified solution (s'.same s))
  | goal e => exact (session.build_shift e).bind fun g => give (.goal g)
  | run e recorded report =>
    exact (session.build_shift e).bind fun g => (session.search_shift fuel g Subst.empty recorded).bind fun found =>
      (report.tellAll_shift session.scope found).bind fun solutions => give (.solutions solutions)
  | apply e store report =>
    exact (session.build_shift e).bind fun g => (session.scope.store_shift store).bind fun s =>
      (session.search_shift fuel g s false).bind fun found =>
        (report.tellAll_shift session.scope found).bind fun solutions => give (.solutions solutions)
  | count g start => exact give (.numbers (g.search Arith.search start))

theorem answer_shift (fuel : Nat) (c : Command) :
    (Build.shifted k).Holds (Answer.rename (Var.shift k)) (Answer.unhashed <$> session.answer fuel c)
      (Answer.unhashed <$> (session.shift k).answer fuel c) := by
  by_cases hc : ∃ e₁ e₂, c = .compareVars e₁ e₂
  · obtain ⟨e₁, e₂, rfl⟩ := hc
    simp only [answer, map_bind, map_pure, Answer.unhashed]
    refine (e₁.evalVar_shift session.scope).bind fun x => (e₂.evalVar_shift session.scope).bind fun y => ?_
    simp only [Var.compare_shift, (Var.shift_injective k).eq_iff]
    exact (Build.shifted k).holds_pure (Answer.rename (Var.shift k)) (.vars (decide (x = y)) (compare x y) (decide (x = y)))
  · exact Answer.unhashed_shift (session.answer_shift_of_ne fuel c (by simpa using hc))

end Session

/-! ### Replies -/

/-- The reply without whether the hashes of two variables agree. -/
def Reply.unhashed (reply : Reply) : Reply :=
  ⟨mapBoth id Answer.unhashed reply.result, reply.events⟩

def Reply.rename (p : Var → Var) (reply : Reply) : Reply :=
  ⟨mapBoth (Fault.rename p) (Answer.rename p) reply.result, reply.events.map (Event.rename p)⟩

namespace Session

variable (session : Session)

theorem save_unhashed (name : String) (a : Answer) : session.save name a.unhashed = session.save name a := by
  cases a <;> rfl

theorem save_shift (name : String) (a : Answer) :
    (session.shift k).save name (a.rename (Var.shift k)) = (session.save name a).shift k := by
  cases a with
  | solutions ss =>
    have hscope : ∀ found : List (Solution × Nat),
        (found.map (Prod.map (Solution.rename (Var.shift k)) id)).foldl
            (fun scope p => scope.addStore (solutionName name p.2) p.1.store) (session.scope.rename (Var.shift k)) =
          (found.foldl (fun scope p => scope.addStore (solutionName name p.2) p.1.store) session.scope).rename
            (Var.shift k) := by
      intro found
      rw [List.foldl_map]
      exact List.foldl_hom (Scope.rename (Var.shift k)) fun scope p =>
        (scope.rename_addStore (solutionName name p.2) p.1.store).symm
    rw [Answer.rename, save, List.zipIdx_map]
    exact congrArg (session.shift k).withScope (hscope ss.zipIdx)
  | _ => rfl

/-- The reply to a command that came to an end, and the session after it. -/
def close (name? : Option String) (r : (Except Fault Answer × Progress) × List Event) : Reply × Session :=
  let session' := { session with history := session.present, supply := r.1.2.supply }
  (⟨r.1.1, r.2.reverse⟩,
    match r.1.1, name? with
    | .ok a, some name => session'.save name a
    | _, _ => session')

theorem perform_eq (fuel : Nat) (c : Command) (name? : Option String) :
    session.perform fuel c name? =
      ((session.answer fuel c).run ⟨session.supply, none⟩ []).map (session.close name?) := by
  rw [perform]
  cases (session.answer fuel c).run ⟨session.supply, none⟩ [] <;> rfl

theorem close_unhashed (name? : Option String) (result : Except Fault Answer) (st : Progress) (past : List Event) :
    session.close name? ((mapBoth id Answer.unhashed result, st), past) =
      Prod.map Reply.unhashed id (session.close name? ((result, st), past)) := by
  cases result with
  | error e => cases name? <;> rfl
  | ok a =>
    cases name? with
    | none => rfl
    | some name => simp [close, mapBoth, save_unhashed, Reply.unhashed]

theorem close_shift (name? : Option String) (result : Except Fault Answer) (st : Progress) (past : List Event) :
    (session.shift k).close name? ((mapBoth (Fault.rename (Var.shift k)) (Answer.rename (Var.shift k)) result,
        st.shift k), past.map (Event.rename (Var.shift k))) =
      Prod.map (Reply.rename (Var.shift k)) (shift k) (session.close name? ((result, st), past)) := by
  have hafter : { session.shift k with
      history := (session.shift k).present
      supply := (st.shift k).supply } =
      ({ session with history := session.present, supply := st.supply } : Session).shift k := by
    rw [present_shift]
    rfl
  simp only [close, Prod.map, Reply.rename, List.map_reverse, hafter]
  cases result with
  | error e => cases name? <;> rfl
  | ok a =>
    cases name? with
    | none => rfl
    | some name => simp only [mapBoth, save_shift]

theorem run_unhashed (q : Build Answer) (st : Progress) (past : List Event) :
    (Answer.unhashed <$> q).run st past =
      (q.run st past).map fun r => ((mapBoth id Answer.unhashed r.1.1, r.1.2), r.2) := by
  rw [map_eq_pure_bind]
  show (q.run >>= ExceptT.bindCont fun a => pure a.unhashed) st past = _
  rw [Act.bind_apply]
  cases q.run st past with
  | none => rfl
  | some r =>
    obtain ⟨⟨result, st'⟩, past'⟩ := r
    cases result <;> rfl

/-- Carries out a command and gives what it makes the name, if there is one.  The reply does not tell whether the hashes
of different variables agree. -/
def respond (fuel : Nat) (step : Command × Option String) : StateT Session Option Reply :=
  fun session => (session.perform fuel step.1 step.2).map (Prod.map Reply.unhashed id)

theorem respond_eq (fuel : Nat) (step : Command × Option String) :
    respond fuel step session =
      ((Answer.unhashed <$> session.answer fuel step.1).run ⟨session.supply, none⟩ []).map (session.close step.2) := by
  rw [respond, perform_eq, run_unhashed, Option.map_map, Option.map_map]
  exact Option.map_congr fun r _ => (session.close_unhashed step.2 r.1.1 r.1.2 r.2).symm

/-- A session in which all variables have later numbers carries out a command in the same way. -/
theorem respond_shift (fuel : Nat) (step : Command × Option String) :
    ((Correspondence.results Option).stateT (shift k)).Holds (Reply.rename (Var.shift k)) (respond fuel step)
      (respond fuel step) := by
  intro session
  have hrun : (Answer.unhashed <$> (session.shift k).answer fuel step.1).run ⟨session.supply.shift k, none⟩ [] = _ :=
    session.answer_shift fuel step.1 ⟨session.supply, none⟩ []
  show respond fuel step (session.shift k) = (respond fuel step session).map _
  rw [respond_eq, respond_eq, Option.map_map]
  show Option.map _ ((Answer.unhashed <$> (session.shift k).answer fuel step.1).run
    ⟨session.supply.shift k, none⟩ []) = _
  rw [hrun, Option.map_eq_map, Option.map_map]
  exact Option.map_congr fun r _ => session.close_shift step.2 r.1.1 r.1.2 r.2

/-- Carries out commands one after the other. -/
def respondAll (fuel : Nat) (program : List (Command × Option String)) : StateT Session Option (List Reply) :=
  program.mapM (respond fuel)

theorem respondAll_shift (fuel : Nat) (program : List (Command × Option String)) :
    respondAll fuel program (session.shift k) =
      (respondAll fuel program session).map (Prod.map (List.map (Reply.rename (Var.shift k))) (shift k)) := by
  have hall := ((Correspondence.results Option).stateT (shift k)).holds_mapM (e := id) (respond_shift fuel) program
  rw [List.map_id] at hall
  exact hall session

/-! ### The beginning of a session -/

/-- A session with the given relations and variables, of which the first variable gets the given number. -/
def startAt (n : Nat) (relations : List (String × Relation)) (vars : List (String × String)) : Session :=
  vars.foldl (fun session x => session.addVar x.1 x.2)
    { history := { relations := relations }, supply := { nextVar := n } }

theorem addVar_shift (name label : String) :
    (session.shift k).addVar name label = (session.addVar name label).shift k := by
  have hnext : session.supply.nextVar + k + 1 = session.supply.nextVar + 1 + k := by omega
  simp [addVar, shift, withScope, Var.fresh, Supply.shift, Names.rename, Session.scope, Scope.rename, Scope.addTerm, hnext,
    Term.rename, Var.shift]

theorem startAt_eq_shift (n : Nat) (relations : List (String × Relation)) (vars : List (String × String)) :
    startAt n relations vars = (start relations vars).shift n := by
  have hempty : { history := { relations := relations }, supply := { nextVar := n } } =
      ({ history := { relations := relations } } : Session).shift n := by
    simp [shift, History.rename, Names.rename, Scope.rename, Supply.shift]
  rw [startAt, start, hempty]
  exact List.foldl_hom (shift n) fun session x => session.addVar_shift x.1 x.2

end Session

end RelLogic
