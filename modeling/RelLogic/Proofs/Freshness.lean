import RelLogic.Proofs.GoalOperations
import RelLogic.Proofs.SessionShift

/-!
# New variables are new

A session carries out its commands by operations on what there is (`Session.In.perform`).  So a session that has carried
out any commands has its names, the names of all earlier moments, and whatever it ever answered from a world that
operations lead to from the empty one (`Session.Reachable.exists_world`).  In such a world a new variable is new.
-/

namespace RelLogic

variable {w w' : World}

/-! ### Commands -/

/-- The substitution has been made, and so have the terms that were to be told about it. -/
structure Solution.In (w : World) (solution : Solution) : Prop where
  store : solution.store ∈ w.stores
  resolved : ∀ t ∈ solution.resolved, t ∈ w.terms
  lookedUp : ∀ t ∈ solution.lookedUp, t ∈ w.terms

/-- What the answer holds has been made. -/
def Answer.In (w : World) : Answer → Prop
  | .term t => t ∈ w.terms
  | .items ts => ∀ t ∈ ts, t ∈ w.terms
  | .atoms a b _ _ _ => a ∈ w.terms ∧ b ∈ w.terms
  | .pair t car cdr _ _ _ => t ∈ w.terms ∧ car ∈ w.terms ∧ cdr ∈ w.terms
  | .store s => s.In w
  | .binding t? s => (∀ t, t? = some t → t ∈ w.terms) ∧ s ∈ w.stores
  | .unified s _ => s.In w
  | .goal g => g ∈ w.goals
  | .solutions ss => ∀ s ∈ ss, s.In w
  | _ => True

theorem Solution.In.mono {solution : Solution} (h : solution.In w) (hw : w.Le w') : solution.In w' :=
  ⟨hw.stores h.store, fun t ht => hw.terms (h.resolved t ht), fun t ht => hw.terms (h.lookedUp t ht)⟩

theorem Answer.In.mono {a : Answer} (h : a.In w) (hw : w.Le w') : a.In w' := by
  cases a with
  | term t => exact hw.terms h
  | items ts => exact fun t ht => hw.terms (h t ht)
  | atoms a b _ _ _ => exact ⟨hw.terms h.1, hw.terms h.2⟩
  | pair t car cdr _ _ _ => exact ⟨hw.terms h.1, hw.terms h.2.1, hw.terms h.2.2⟩
  | store s => exact Solution.In.mono h hw
  | binding t? s => exact ⟨fun t ht => hw.terms (h.1 t ht), hw.stores h.2⟩
  | unified s _ => exact Solution.In.mono h hw
  | goal g => exact hw.goals h
  | solutions ss => exact fun s hs => (h s hs).mono hw
  | _ => trivial

/-- To record an event draws no variable, unless it says so. -/
theorem Build.runs_record {e : Event} (he : ∀ x, e ≠ .created x) :
    Build.Runs w (liftM (Traced.record e)) fun _ _ => True := by
  refine Build.runs_lift (q := liftM (Traced.record e)) fun st past a st' past' hst hrun => ?_
  have hrun : some (((), st), e :: past) = some ((a, st'), past') := hrun
  obtain ⟨⟨-, rfl⟩, rfl⟩ : (() = a ∧ st = st') ∧ e :: past = past' := by simpa using hrun
  refine ⟨w, .refl, ⟨hst.supply, hst.fault, fun x hx => ?_⟩, trivial⟩
  rcases List.mem_cons.1 hx with hx | hx
  · exact (he x hx.symm).elim
  · exact hst.created x hx

theorem Subst.record_runs {s : Subst} {x : Var} {t : Term} (hs : s ∈ w.stores) (hx : .var x ∈ w.terms)
    (ht : t ∈ w.terms) : Build.Runs w (liftM (s.record x t)) fun w' s' => s' ∈ w'.stores := by
  show Build.Runs w (liftM (Traced.record (.extended x t)) >>= fun _ => pure (s.extend x t)) _
  exact (Build.runs_record fun _ => Event.noConfusion).bind fun w₁ hw₁ _ _ =>
    Act.Runs.after (.addStore (.extend (hw₁.le.stores hs) (hw₁.le.terms hx) (hw₁.le.terms ht)))
      (Build.runs_pure (Set.mem_insert ..))

namespace Scope

variable {scope : Scope}

theorem In.vars_runs (h : scope.In w) (es : List TermExpr) :
    Build.Runs w (es.mapM (TermExpr.evalVar scope)) fun w' xs => ∀ x ∈ xs, .var x ∈ w'.terms :=
  Build.runs_mapM (P := fun w x => .var x ∈ w.terms) (fun hw hx => hw.terms hx)
    fun _ hw e _ => TermExpr.evalVar_runs (h.mono hw.le) e

theorem In.tell_runs (h : scope.In w) {s : Subst} (hs : s ∈ w.stores) (report : Report) :
    Build.Runs w (report.tell scope s) fun w' solution => solution.In w' := by
  refine (TermExpr.evalAll_runs h report.resolved).bind fun w₁ hw₁ ts hts => ?_
  refine (Build.runs_mapM (P := fun w t => t ∈ w.terms) (fun hw ht => hw.terms ht) fun w' hw' t ht =>
    Build.runs_attempt fun r hr =>
      .resolve (hw'.le.stores (hw₁.le.stores hs)) (hw'.le.terms (hts t ht)) hr).bind fun w₂ hw₂ resolved hresolved => ?_
  refine (((h.mono hw₁.le).mono hw₂.le).vars_runs report.lookedUp).bind fun w₃ hw₃ xs hxs => ?_
  refine (Build.runs_mapM (P := fun w t => t ∈ w.terms) (fun hw ht => hw.terms ht) fun w' hw' x hx =>
    Build.runs_ofOption fun t ht => .lookup (hw'.le.stores (hw₃.le.stores (hw₂.le.stores (hw₁.le.stores hs))))
      (hw'.le.terms (hxs x hx)) ht).bind fun w₄ hw₄ lookedUp hlookedUp => ?_
  have hle := hw₃.le.trans hw₄.le
  exact Build.runs_pure ⟨hle.stores (hw₂.le.stores (hw₁.le.stores hs)), fun t ht => hle.terms (hresolved t ht),
    hlookedUp⟩

theorem In.tellAll_runs (h : scope.In w) {found : List Subst} (hfound : ∀ s ∈ found, s ∈ w.stores) (report : Report) :
    Build.Runs w (found.mapM (report.tell scope)) fun w' solutions => ∀ solution ∈ solutions, solution.In w' :=
  Build.runs_mapM (P := fun w (solution : Solution) => solution.In w) (fun hw h => h.mono hw) fun _ hw s hs =>
    (h.mono hw.le).tell_runs (hw.le.stores (hfound s hs)) report

theorem In.extendAll_runs (h : scope.In w) {s : Subst} (hs : s ∈ w.stores) (bs : List (TermExpr × TermExpr)) :
    Build.Runs w (bs.foldlM scope.extendBy s) fun w' s' => s' ∈ w'.stores :=
  Build.runs_foldlM (P := fun w s => s ∈ w.stores) (fun _ hw _ hs b _ =>
    (TermExpr.evalVar_runs (h.mono hw.le) b.1).bind fun _ hw₁ _ hx =>
      (TermExpr.eval_runs ((h.mono hw.le).mono hw₁.le) b.2).bind fun _ hw₂ _ ht =>
        Subst.record_runs (hw₂.le.stores (hw₁.le.stores hs)) (hw₂.le.terms hx) ht) hs

end Scope

namespace Session

/-- The names of a session, present and past, stand for what has been made from its supply. -/
structure In (w : World) (session : Session) : Prop where
  supply : w.supply = session.supply
  history : session.history.In w
  names : session.names.In w

variable {session : Session}

theorem In.present (h : session.In w) : session.present.In w := by
  intro names hnames
  rcases Array.mem_push.1 hnames with hold | rfl
  · exact h.history names hold
  · exact h.names

theorem search_runs (h : session.present.In w) {g : Goal Literal} {s : Subst} (hg : g ∈ w.goals) (hs : s ∈ w.stores)
    (fuel : Nat) (recorded : Bool) :
    Build.Runs w (session.search fuel g s recorded) fun w' found => ∀ r ∈ found, r ∈ w'.stores := by
  have hget : ∀ w, Act.Runs w get fun w' st => ∀ f, st.fault? = some f → f.In w' := by
    intro w st past st₁ st' past' hst hrun
    have hrun : some ((st, st), past) = some ((st₁, st'), past') := hrun
    obtain ⟨⟨rfl, rfl⟩, rfl⟩ : (st = st₁ ∧ st = st') ∧ past = past' := by simpa using hrun
    exact ⟨w, .refl, hst, hst.fault⟩
  refine (Build.runs_lift (Goal.search_works h fuel hg w .refl s hs)).bind fun w₁ _ found hfound => ?_
  cases recorded
  on_goal 2 =>
    refine (Build.runs_record fun _ => Event.noConfusion).bind fun w₂ hw₂ _ _ => ?_
    replace hfound : ∀ r ∈ found, r ∈ w₂.stores := fun r hr => hw₂.le.stores (hfound r hr)
  all_goals
    refine (Build.runs_lift (hget _)).bind fun w₃ hw₃ st hfault => ?_
    obtain ⟨supply, fault?⟩ := st
    cases fault? with
    | some f => exact Build.runs_throw (hfault f rfl)
    | none => exact Build.runs_pure fun r hr => hw₃.le.stores (hfound r hr)

/-- A command is answered by operations on what has names and on what they make, and its answer has been made then. -/
theorem answer_runs (h : session.In w) (fuel : Nat) (c : Command) :
    Build.Runs w (session.answer fuel c) fun w' a => a.In w' := by
  have hscope : ∀ {w'}, w.Reaches w' → session.scope.In w' := fun hw => h.names.scope.mono hw.le
  have hpresent : ∀ {w'}, w.Reaches w' → session.present.In w' := fun hw => h.present.mono hw.le
  have hbuild : ∀ e : GoalExpr, Build.Runs w (e.build session.env) fun w' g => g ∈ w'.goals :=
    GoalExpr.build_runs h.names
  cases c with
  | declare label => exact (Build.runs_newVar label).bind fun _ _ x hx => Build.runs_pure hx
  | compareVars e₁ e₂ =>
    exact (TermExpr.evalVar_runs (hscope .refl) e₁).bind fun _ hw₁ _ _ =>
      (TermExpr.evalVar_runs (hscope hw₁) e₂).bind fun _ _ _ _ => Build.runs_pure trivial
  | term e => exact (TermExpr.eval_runs (hscope .refl) e).bind fun _ _ _ ht => Build.runs_pure ht
  | template text es =>
    refine (TermExpr.evalAll_runs (hscope .refl) es).bind fun _ _ items hitems => ?_
    cases Template.ofString? text with
    | none => exact Build.runs_throw (List.forall_mem_nil _)
    | some template =>
      refine (Build.runs_draw (Template.fill?_makes hitems template)).bind fun _ _ t? ht => ?_
      cases t? with
      | none => exact Build.runs_throw (List.forall_mem_nil _)
      | some t => exact Build.runs_pure (ht t rfl)
  | items e =>
    refine (TermExpr.eval_runs (hscope .refl) e).bind fun w₁ _ t ht => ?_
    obtain ⟨w₂, hw₂, hitems, hend⟩ := World.exists_quiet_spine ht
    refine Act.Runs.after hw₂ (Build.Runs.bind (Q := fun w' ts => ∀ t ∈ ts, t ∈ w'.terms) ?_ fun _ _ _ hts =>
      Build.runs_pure hts)
    exact Build.runs_ofExcept (fun ts hts => Build.runs_pure (Term.spine_of_items? hts ▸ hitems))
      fun e he => Term.found_of_items? he ▸ hend
  | compareTerms e₁ e₂ =>
    exact (TermExpr.eval_runs (hscope .refl) e₁).bind fun _ hw₁ _ _ =>
      (TermExpr.eval_runs (hscope hw₁) e₂).bind fun _ _ _ _ => Build.runs_pure trivial
  | compareAtom e a =>
    refine (TermExpr.eval_runs (hscope .refl) e).bind fun _ _ t _ => ?_
    cases t <;> exact Build.runs_pure trivial
  | compareAtoms a b =>
    exact (Build.runs_draw (Term.ofAtom_makes a)).bind fun _ _ s hs =>
      (Build.runs_draw (Term.ofAtom_makes b)).bind fun _ hw₂ t ht => Build.runs_pure ⟨hw₂.le.terms hs, ht⟩
  | pair e₁ e₂ =>
    refine (TermExpr.eval_runs (hscope .refl) e₁).bind fun w₁ hw₁ a ha => ?_
    refine (TermExpr.eval_runs (hscope hw₁) e₂).bind fun w₂ hw₂ d hd => ?_
    refine (TermExpr.eval_runs (hscope (hw₁.trans hw₂)) e₁).bind fun w₃ hw₃ _ _ => ?_
    refine (TermExpr.eval_runs (hscope ((hw₁.trans hw₂).trans hw₃)) e₂).bind fun w₄ hw₄ _ _ => ?_
    have ha₄ : a ∈ w₄.terms := hw₄.le.terms (hw₃.le.terms (hw₂.le.terms ha))
    have hd₄ : d ∈ w₄.terms := hw₄.le.terms (hw₃.le.terms hd)
    exact (Build.runs_draw (Term.cons_makes ha₄ hd₄)).bind fun w₅ hw₅ t ht =>
      Build.runs_pure ⟨ht, hw₅.le.terms ha₄, hw₅.le.terms hd₄⟩
  | extend store bindings report =>
    exact ((hscope .refl).store_runs store).bind fun _ hw₁ _ hs =>
      ((hscope hw₁).extendAll_runs hs bindings).bind fun _ hw₂ _ hs' =>
        ((hscope (hw₁.trans hw₂)).tell_runs hs' report).bind fun _ _ _ hsolution => Build.runs_pure hsolution
  | bindFirst count vars terms report =>
    refine ((hscope .refl).vars_runs vars).bind fun w₁ hw₁ xs hxs => ?_
    refine (TermExpr.evalAll_runs (hscope hw₁) terms).bind fun w₂ hw₂ ts hts => ?_
    have hrecord : Build.Runs w₂ (((xs.zip ts).take count).foldlM (fun s b => s.record b.1 b.2) Subst.empty)
        fun w' s => s ∈ w'.stores := by
      refine Act.Runs.after (.addStore .empty)
        (Build.runs_foldlM (P := fun w s => s ∈ w.stores) (fun w' hw' s hs b hb => ?_) (Set.mem_insert ..))
      obtain ⟨hx, ht⟩ := List.of_mem_zip (List.mem_of_mem_take hb)
      have hle := World.Step.empty.le.trans hw'.le
      exact Subst.record_runs hs (hle.terms (hw₂.le.terms (hxs b.1 hx))) (hle.terms (hts b.2 ht))
    exact hrecord.bind fun w₃ hw₃ s hs =>
      ((hscope ((hw₁.trans hw₂).trans hw₃)).tell_runs hs report).bind fun _ _ _ hsolution => Build.runs_pure hsolution
  | get store e =>
    refine ((hscope .refl).store_runs store).bind fun w₁ hw₁ s hs => ?_
    refine (TermExpr.evalVar_runs (hscope hw₁) e).bind fun w₂ hw₂ x hx => ?_
    cases ht : s.get? x with
    | none => exact Build.runs_pure ⟨nofun, hw₂.le.stores hs⟩
    | some t =>
      refine Act.Runs.after (.addTerm (.get (hw₂.le.stores hs) hx ht)) (Build.runs_pure ⟨?_, hw₂.le.stores hs⟩)
      rintro _ ⟨⟩
      exact Set.mem_insert ..
  | compareStores l r =>
    exact ((hscope .refl).store_runs l).bind fun _ hw₁ _ _ =>
      ((hscope hw₁).store_runs r).bind fun _ _ _ _ => Build.runs_pure trivial
  | unify e₁ e₂ store report =>
    refine (TermExpr.eval_runs (hscope .refl) e₁).bind fun w₁ hw₁ u hu => ?_
    refine (TermExpr.eval_runs (hscope hw₁) e₂).bind fun w₂ hw₂ v hv => ?_
    refine ((hscope (hw₁.trans hw₂)).store_runs store).bind fun w₃ hw₃ s hs => ?_
    refine (Build.runs_lift (Equation.search_runs (e := ⟨u, v⟩) (hw₃.le.terms (hw₂.le.terms hu)) (hw₃.le.terms hv) hs
      fuel)).bind fun w₄ hw₄ found hfound => ?_
    cases found with
    | nil => exact Build.runs_pure trivial
    | cons s' others =>
      exact ((hscope (((hw₁.trans hw₂).trans hw₃).trans hw₄)).tell_runs (hfound s' (List.mem_cons_self ..)) report).bind
        fun _ _ _ hsolution => Build.runs_pure hsolution
  | goal e => exact (hbuild e).bind fun _ _ _ hg => Build.runs_pure hg
  | run e recorded report =>
    refine (hbuild e).bind fun w₁ hw₁ g hg => Act.Runs.after (.addStore .empty) ?_
    have hw₂ := hw₁.tail World.Step.empty
    refine (search_runs (hpresent hw₂) hg (Set.mem_insert ..) fuel recorded).bind fun w₃ hw₃ found hfound => ?_
    exact ((hscope (hw₂.trans hw₃)).tellAll_runs hfound report).bind fun _ _ _ hsolutions => Build.runs_pure hsolutions
  | apply e store report =>
    refine (hbuild e).bind fun w₁ hw₁ g hg => ((hscope hw₁).store_runs store).bind fun w₂ hw₂ s hs => ?_
    have hw := hw₁.trans hw₂
    refine (search_runs (hpresent hw) (hw₂.le.goals hg) hs fuel false).bind fun w₃ hw₃ found hfound => ?_
    exact ((hscope (hw.trans hw₃)).tellAll_runs hfound report).bind fun _ _ _ hsolutions => Build.runs_pure hsolutions
  | count g start => exact Build.runs_pure trivial

/-! ### Whole sessions -/

end Session

/-- The answer holds only what has been made, or the fault reports only that, and the variables that were recorded as
created have been drawn. -/
structure Reply.In (w : World) (reply : Reply) : Prop where
  result : Build.Result (fun w (a : Answer) => a.In w) w reply.result
  created : ∀ x, .created x ∈ reply.events → x ∈ w.drawn

theorem Reply.In.mono {reply : Reply} (h : reply.In w) (hw : w.Le w') : reply.In w' := by
  refine ⟨?_, fun x hx => hw.drawn (h.created x hx)⟩
  have hresult := h.result
  cases hreply : reply.result with
  | ok a =>
    rw [hreply] at hresult
    exact Answer.In.mono hresult hw
  | error f =>
    rw [hreply] at hresult
    exact Fault.In.mono hresult hw

namespace Session

variable {session session' : Session}

theorem In.save (h : session.In w) {a : Answer} (ha : a.In w) (name : String) : (session.save name a).In w := by
  cases a with
  | term t => exact ⟨h.supply, h.history, h.names.scope.addTerm ha name, h.names.goals⟩
  | pair t _ _ _ _ _ => exact ⟨h.supply, h.history, h.names.scope.addTerm ha.1 name, h.names.goals⟩
  | store s => exact ⟨h.supply, h.history, h.names.scope.addStore (Solution.In.store ha) name, h.names.goals⟩
  | unified s _ => exact ⟨h.supply, h.history, h.names.scope.addStore (Solution.In.store ha) name, h.names.goals⟩
  | goal g => exact ⟨h.supply, h.history, h.names.scope, List.forall_mem_cons.2 ⟨ha, h.names.goals⟩⟩
  | solutions ss =>
    have hfold : ∀ (found : List (Solution × Nat)) (scope : Scope), scope.In w → (∀ p ∈ found, p.1.In w) →
        (found.foldl (fun scope p => scope.addStore (solutionName name p.2) p.1.store) scope).In w := by
      intro found
      induction found with
      | nil => exact fun _ hscope _ => hscope
      | cons p found ih =>
        intro scope hscope hfound
        obtain ⟨hp, hrest⟩ := List.forall_mem_cons.1 hfound
        exact ih _ (hscope.addStore hp.store _) hrest
    exact ⟨h.supply, h.history, hfold ss.zipIdx session.scope h.names.scope fun p hp =>
      ha p.1 (List.fst_mem_of_mem_zipIdx hp), h.names.goals⟩
  | _ => exact h

/-- A command is carried out by operations, and what it names has been made. -/
theorem In.perform (h : session.In w) {fuel : Nat} {c : Command} {name? : Option String} {reply : Reply}
    (hperform : session.perform fuel c name? = some (reply, session')) :
    ∃ w', w.Reaches w' ∧ reply.In w' ∧ session'.In w' := by
  rw [perform_eq, Option.map_eq_some_iff] at hperform
  obtain ⟨⟨⟨result, st⟩, past⟩, hrun, hclose⟩ := hperform
  have hfits : w.Fits ⟨session.supply, none⟩ [] := ⟨h.supply, nofun, nofun⟩
  obtain ⟨w', hw', hst, hresult⟩ := answer_runs h fuel c ⟨session.supply, none⟩ [] result st past hfits hrun
  have hafter : ({ session with history := session.present, supply := st.supply } : Session).In w' :=
    ⟨hst.supply, h.present.mono hw'.le, h.names.mono hw'.le⟩
  obtain ⟨rfl, rfl⟩ := Prod.mk.inj hclose
  refine ⟨w', hw', ⟨hresult, fun x hx => hst.created x (List.mem_reverse.1 hx)⟩, ?_⟩
  cases result with
  | error f => cases name? <;> exact hafter
  | ok a =>
    cases name? with
    | none => exact hafter
    | some name => exact hafter.save hresult name

theorem In.addVar (h : session.In w) (name label : String) :
    ∃ w', w.Reaches w' ∧ (session.addVar name label).In w' := by
  have hstep : w.Step (w.drawVar label) := .newVar label
  have hvar : Term.var (Var.fresh label session.supply).1 ∈ (w.drawVar label).terms := by
    rw [← h.supply]
    exact Set.mem_insert ..
  have hsupply : (w.drawVar label).supply = (Var.fresh label session.supply).2 := by
    rw [← h.supply]
    rfl
  have hnames := h.names.mono hstep.le
  exact ⟨_, .single hstep, hsupply, h.history.mono hstep.le, hnames.scope.addTerm hvar name, hnames.goals⟩

theorem exists_world_startAt (n : Nat) (relations : List (String × Relation)) (vars : List (String × String)) :
    ∃ w, (World.start { nextVar := n }).Reaches w ∧ (startAt n relations vars).In w := by
  have hfold : ∀ (vars : List (String × String)) (session : Session) (w : World), session.In w →
      ∃ w', w.Reaches w' ∧ (vars.foldl (fun session x => session.addVar x.1 x.2) session).In w' := by
    intro vars
    induction vars with
    | nil => exact fun _ w h => ⟨w, .refl, h⟩
    | cons x vars ih =>
      intro session w h
      obtain ⟨w₁, hw₁, h₁⟩ := h.addVar x.1 x.2
      obtain ⟨w₂, hw₂, h₂⟩ := ih _ w₁ h₁
      exact ⟨w₂, hw₁.trans hw₂, h₂⟩
  exact hfold vars _ _ ⟨rfl, nofun, Names.in_empty⟩

/-- What a session that starts with the given number of a variable can come to by commands, and what it has replied
until then, the latest reply first. -/
inductive Reachable (n : Nat) : Session → List Reply → Prop
  | start (relations : List (String × Relation)) (vars : List (String × String)) :
      Reachable n (startAt n relations vars) []
  | perform {session session' : Session} {replies : List Reply} {reply : Reply} (fuel : Nat) (c : Command)
      (name? : Option String) (h : Reachable n session replies)
      (hperform : session.perform fuel c name? = some (reply, session')) : Reachable n session' (reply :: replies)

/-- All that there is in a session, and all that it ever replied, is in a world that operations lead to. -/
theorem Reachable.exists_world {n : Nat} {replies : List Reply} (h : Reachable n session replies) :
    ∃ w, (World.start { nextVar := n }).Reaches w ∧ session.In w ∧ ∀ reply ∈ replies, reply.In w := by
  induction h with
  | start relations vars =>
    obtain ⟨w, hw, hsession⟩ := exists_world_startAt n relations vars
    exact ⟨w, hw, hsession, List.forall_mem_nil _⟩
  | perform _ _ _ _ hperform ih =>
    obtain ⟨w, hw, hsession, hreplies⟩ := ih
    obtain ⟨w', hw', hreply, hsession'⟩ := hsession.perform hperform
    exact ⟨w', hw.trans hw', hsession',
      List.forall_mem_cons.2 ⟨hreply, fun reply hr => (hreplies reply hr).mono hw'.le⟩⟩

end Session

/-! ### Items of two lists -/

/-- The variable for the items of two lists is drawn when both lists have been made, and it stays drawn where one of
them is refused. -/
theorem GoalExpr.build_common {env : Env} {e₁ e₂ : TermExpr} {st st₁ st₂ : Progress} {past past₁ past₂ : List Event}
    {l₁ l₂ : Term} (h₁ : (e₁.eval env.scope).run st past = some ((.ok l₁, st₁), past₁))
    (h₂ : (e₂.eval env.scope).run st₁ past₁ = some ((.ok l₂, st₂), past₂)) :
    ((common e₁ e₂).build env).run st past =
      some ((mapBoth Fault.shape Goal.ofEquations (Goal.common (Var.fresh "v" st₂.supply).1 l₁ l₂),
        { st₂ with supply := (Var.fresh "v" st₂.supply).2 }), .created (Var.fresh "v" st₂.supply).1 :: past₂) := by
  show ((e₁.eval env.scope).run >>= ExceptT.bindCont fun l₁ => _) st past = _
  rw [Act.bind_apply, h₁]
  show ((e₂.eval env.scope).run >>= ExceptT.bindCont fun l₂ => _) st₁ past₁ = _
  rw [Act.bind_apply, h₂]
  show ((do
    let g ← Build.ofExcept (Goal.common (Var.fresh "v" st₂.supply).1 l₁ l₂)
    return g.ofEquations : Build (Goal Literal)).run { st₂ with supply := (Var.fresh "v" st₂.supply).2 }
      (.created (Var.fresh "v" st₂.supply).1 :: past₂)) = _
  cases Goal.common (Var.fresh "v" st₂.supply).1 l₁ l₂ <;> rfl

/-! ### Main statement -/

/-- Whatever operations are carried out, in whatever order, the numbers of all variables that occur in the terms, the
substitutions and the goals of that moment are below the number of the next variable, and so the next variable is new;
and every variable that has been drawn was drawn at such a moment.  A session, with all that it named and replied and
with all the variables that it recorded as created, is at such a moment, and so are the results of goals that make
further goals while they are applied.  The variable for the items of two lists is drawn even if one of the lists is
refused.  Walking, looking up, resolving and unifying give only variables that occur in what they are given. -/
theorem fresh_over_runs :
    (∀ σ w, (World.start σ).Reaches w → w.Below ∧ (∀ label, w.IsNew (Var.fresh label w.supply).1) ∧
      ∀ x ∈ w.drawn, ∃ w₀ label, (World.start σ).Reaches w₀ ∧ (w₀.drawVar label).Reaches w ∧
        x = (Var.fresh label w₀.supply).1 ∧ w₀.IsNew x) ∧
    (∀ n session replies, Session.Reachable n session replies →
      ∃ w, (World.start { nextVar := n }).Reaches w ∧ session.In w ∧ ∀ reply ∈ replies, reply.In w) ∧
    (∀ (w : World) (history : History) (fuel : Nat) (g : Goal Literal) (s : Subst) st past results st' past',
      history.In w → g ∈ w.goals → s ∈ w.stores → w.Fits st past →
      g.search (Literal.search history fuel) s st past = some ((results, st'), past') →
        ∃ w', w.Reaches w' ∧ w'.Fits st' past' ∧ ∀ r ∈ results, r ∈ w'.stores) ∧
    (∀ (w : World) (env : Env) (e₁ e₂ : TermExpr) st past l₁ st₁ past₁ l₂ st₂ past₂,
      w.Below → env.names.In w → w.Fits st past →
      (e₁.eval env.scope).run st past = some ((.ok l₁, st₁), past₁) →
      (e₂.eval env.scope).run st₁ past₁ = some ((.ok l₂, st₂), past₂) →
        ∃ w₂, w.Reaches w₂ ∧ w₂.Fits st₂ past₂ ∧ w₂.IsNew (Var.fresh "v" st₂.supply).1 ∧
          ((GoalExpr.common e₁ e₂).build env).run st past =
            some ((mapBoth Fault.shape Goal.ofEquations (Goal.common (Var.fresh "v" st₂.supply).1 l₁ l₂),
              { st₂ with supply := (Var.fresh "v" st₂.supply).2 }), .created (Var.fresh "v" st₂.supply).1 :: past₂)) ∧
    (∀ s t u, Subst.walk? s t = some u → ∀ x ∈ u.vars, x ∈ s.vars ∨ x ∈ t.vars) ∧
    (∀ s y u, Subst.lookup? s y = some u → ∀ x ∈ u.vars, x ∈ s.vars ∨ x = y) ∧
    (∀ s t σ u σ', Subst.resolve? s t σ = some (u, σ') → ∀ x ∈ u.vars, x ∈ s.vars ∨ x ∈ t.vars) ∧
    ∀ fuel u v s events s', unify? fuel u v s = some ⟨events, some s'⟩ →
      ∀ x ∈ s'.vars, x ∈ s.vars ∨ x ∈ u.vars ∨ x ∈ v.vars := by
  have hbelow : ∀ σ w, (World.start σ).Reaches w → w.Below := fun σ w hw => (World.below_start σ).reaches hw
  refine ⟨fun σ w hw => ⟨hbelow σ w hw, (hbelow σ w hw).fresh, fun x hx => ?_⟩,
    fun n session replies h => h.exists_world, ?_, ?_, fun s t u => Subst.vars_of_walk?, fun s y u => Subst.vars_of_lookup?,
    fun s t σ u σ' => Subst.vars_of_resolve?, fun fuel u v s events s' h => vars_of_unify? h rfl⟩
  · obtain hstart | ⟨w₀, label, hw₀, hw₁, rfl⟩ := hw.exists_of_drawn hx
    · cases hstart
    · exact ⟨w₀, label, hw₀, hw₁, rfl, (hbelow σ w₀ hw₀).fresh label⟩
  · intro w history fuel g s st past results st' past' h hg hs hst hrun
    exact Goal.search_works h fuel hg w .refl s hs st past results st' past' hst hrun
  · intro w env e₁ e₂ st past l₁ st₁ past₁ l₂ st₂ past₂ hw h hst h₁ h₂
    obtain ⟨w₁, hw₁, hst₁, -⟩ := TermExpr.eval_runs h.scope e₁ st past (.ok l₁) st₁ past₁ hst h₁
    obtain ⟨w₂, hw₂, hst₂, -⟩ := TermExpr.eval_runs (h.scope.mono hw₁.le) e₂ st₁ past₁ (.ok l₂) st₂ past₂ hst₁ h₂
    have hreaches : w.Reaches w₂ := hw₁.trans hw₂
    have hnew := (hw.reaches hreaches).fresh "v"
    rw [hst₂.supply] at hnew
    exact ⟨w₂, hreaches, hst₂, hnew, GoalExpr.build_common h₁ h₂⟩

/-- A session asks for the items of a variable `x`, which is no list, and is refused; the variable `v` that was drawn
for them keeps its number, and one that is declared with the same label gets another one.  Where `x` is all that there
is, an equation for it can be applied, and the `v` of the items is new. -/
theorem fresh_over_runs_refused :
    (∃ session, Session.Reachable 0 session
        [⟨.ok (.term (.var ⟨2, "v"⟩)), [.created ⟨2, "v"⟩]⟩,
          ⟨.error (.shape (.improperList (.var ⟨0, "x"⟩))), [.created ⟨1, "v"⟩]⟩] ∧
      ∃ w, (World.start {}).Reaches w ∧ session.In w ∧ (⟨1, "v"⟩ : Var) ∈ w.drawn ∧ w.IsNew ⟨3, "v"⟩) ∧
    (∃ w, ((((World.start {}).drawVar "x").addGoal (.prim (.eq ⟨.var ⟨0, "x"⟩, .nil⟩))).addStore .empty).Reaches w ∧
      Subst.empty.extend ⟨0, "x"⟩ .nil ∈ w.stores) ∧
    ∃ w, ((World.start {}).drawVar "x").Reaches w ∧ w.IsNew ⟨1, "v"⟩ := by
  refine ⟨?_, ?_, ?_⟩
  · have hreachable := Session.Reachable.perform 0 (.declare "v") none
      (.perform 0 (.goal (.common (.name "x") .nil)) none (.start (n := 0) [] [("x", "x")]) rfl) rfl
    refine ⟨_, hreachable, ?_⟩
    obtain ⟨w, hw, hsession, hreplies⟩ := fresh_over_runs.2.1 0 _ _ hreachable
    have hnew := (fresh_over_runs.1 {} w hw).2.1 "v"
    rw [hsession.supply] at hnew
    have hrefused := hreplies _ (List.mem_cons_of_mem _ (List.mem_cons_self ..))
    exact ⟨w, hw, hsession, hrefused.created _ (List.mem_cons_self ..), hnew⟩
  · obtain ⟨w, hw, -, hresults⟩ := fresh_over_runs.2.2.1
      ((((World.start {}).drawVar "x").addGoal (.prim (.eq ⟨.var ⟨0, "x"⟩, .nil⟩))).addStore .empty) ⟨[], #[]⟩ 2
      (.prim (.eq ⟨.var ⟨0, "x"⟩, .nil⟩)) .empty ⟨{ nextVar := 1 }, none⟩ [] [Subst.empty.extend ⟨0, "x"⟩ .nil] _ _
      nofun (Set.mem_insert ..) (Set.mem_insert ..) ⟨rfl, nofun, nofun⟩ rfl
    exact ⟨w, hw, hresults _ (List.mem_cons_self ..)⟩
  · have hbelow : ((World.start {}).drawVar "x").Below := (fresh_over_runs.1 {} _ (.single (.newVar "x"))).1
    obtain ⟨w, hw, -, hnew, -⟩ := fresh_over_runs.2.2.2.1 ((World.start {}).drawVar "x")
      ⟨0, { scope := { terms := [("x", .var ⟨0, "x"⟩)] } }⟩ (.name "x") .nil ⟨{ nextVar := 1 }, none⟩ [] _ _ _ _ _ _
      hbelow ⟨⟨List.forall_mem_singleton.2 (Set.mem_insert ..), nofun⟩, nofun⟩ ⟨rfl, nofun, nofun⟩ rfl rfl
    exact ⟨w, hw, hnew⟩

end RelLogic
