import RelLogic.Proofs.Operations

/-!
# Goals as sequences of operations

Goals are made by operations on terms and on other goals.  To apply a goal, it is taken apart into the goals and the
terms that it is put together from.  These are operations too, and so the body of a relation that is called on the way
is made by operations (`Goal.search_works`).
-/

namespace RelLogic

variable {w w' : World}

/-! ### Taking things apart -/

namespace World

/-- Of a list of things that one operation each can make, all can be made. -/
theorem exists_quiet_forall {γ : Type} {P : World → γ → Prop} {cs : List γ}
    (hmono : ∀ {w w' : World} {c : γ}, w.Le w' → P w c → P w' c)
    (hstep : ∀ c ∈ cs, ∀ w', w.Le w' → ∃ w'', w'.Quiet w'' ∧ P w'' c) : ∃ w', w.Quiet w' ∧ ∀ c ∈ cs, P w' c := by
  induction cs with
  | nil => exact ⟨w, .refl w, List.forall_mem_nil _⟩
  | cons c cs ih =>
    obtain ⟨hc, hcs⟩ := List.forall_mem_cons.1 hstep
    obtain ⟨w₁, hw₁, hall⟩ := ih hcs
    obtain ⟨w₂, hw₂, hP⟩ := hc w₁ hw₁.le
    exact ⟨w₂, hw₁.trans hw₂, List.forall_mem_cons.2 ⟨hP, fun c' hc' => hmono hw₂.le (hall c' hc')⟩⟩

/-- The goals that a goal is put together from. -/
theorem exists_quiet_parts {g : Goal Literal} (hg : g ∈ w.goals) : ∃ w', w.Quiet w' ∧ ∀ h ∈ g.parts, h ∈ w'.goals :=
  exists_quiet_forall (fun hw hc => hw.goals hc) fun _ hh _ hw =>
    ⟨_, .addGoal (.goalPart (hw.goals hg) hh), Set.mem_insert ..⟩

/-- The terms of a primitive goal. -/
theorem exists_quiet_terms {l : Literal} (hl : .prim l ∈ w.goals) : ∃ w', w.Quiet w' ∧ ∀ t ∈ l.terms, t ∈ w'.terms :=
  exists_quiet_forall (fun hw hc => hw.terms hc) fun _ ht _ hw =>
    ⟨_, .addTerm (.goalTerm (hw.goals hl) ht), Set.mem_insert ..⟩

/-- The items of a spine and its end. -/
theorem exists_quiet_spine {t : Term} (ht : t ∈ w.terms) :
    ∃ w', w.Quiet w' ∧ (∀ u ∈ t.spine.1, u ∈ w'.terms) ∧ t.spine.2 ∈ w'.terms := by
  induction t generalizing w with
  | pair i a d _ ih =>
    have hcar : w.Quiet (w.addTerm a) := .addTerm (.part (p := .car) ht rfl)
    have hcdr : (w.addTerm a).Quiet ((w.addTerm a).addTerm d) := .addTerm (.part (p := .cdr) (hcar.le.terms ht) rfl)
    obtain ⟨w', hw', hitems, hend⟩ := ih (w := (w.addTerm a).addTerm d) (Set.mem_insert ..)
    have ha : a ∈ w'.terms := hw'.le.terms (hcdr.le.terms (Set.mem_insert ..))
    rw [Term.spine_pair]
    exact ⟨w', (hcar.trans hcdr).trans hw', List.forall_mem_cons.2 ⟨ha, hitems⟩, hend⟩
  | _ => exact ⟨w, .refl w, List.forall_mem_nil _, ht⟩

end World

theorem Term.found_of_items? {t : Term} {e : ShapeError} (h : t.items? = .error e) : e.found = t.spine.2 := by
  unfold items? at h
  split at h
  · cases h
  · rename_i hspine
    obtain rfl := Except.error.inj h
    rw [hspine]
    rfl

/-! ### Goal expressions -/

/-- The terms, substitutions and goals that have names have been made. -/
structure Names.In (w : World) (names : Names) : Prop where
  scope : names.scope.In w
  goals : ∀ e ∈ names.goals, e.2 ∈ w.goals

theorem Names.In.mono {names : Names} (h : names.In w) (hw : w.Le w') : names.In w' :=
  ⟨h.scope.mono hw, fun e he => hw.goals (h.goals e he)⟩

namespace Env

variable {env : Env}

theorem bindFresh_runs (h : env.names.In w) (name : String) :
    Build.Runs w (env.bindFresh name) fun w' env' => env'.names.In w' :=
  (Build.runs_newVar name).bind fun _ hw₁ _ hx =>
    Build.runs_pure ⟨((h.mono hw₁.le).scope).addTerm hx name, (h.mono hw₁.le).goals⟩

theorem bindAll_runs (h : env.names.In w) (names : List String) :
    Build.Runs w (names.foldlM bindFresh env) fun w' env' => env'.names.In w' :=
  Build.runs_foldlM (P := fun w (env : Env) => env.names.In w) (fun _ _ _ henv name _ => bindFresh_runs henv name) h

theorem goal_runs (h : env.names.In w) (name : String) :
    Build.Runs w (env.goal name) fun w' g => g ∈ w'.goals := by
  unfold goal
  split
  · exact Build.runs_pure (h.goals _ (mem_of_lookup_eq_some ‹_›))
  · exact Build.runs_throw nofun

end Env

namespace Goal

/-- A goal that one operation makes. -/
theorem pure_runs {g : Goal Literal} (h : w.Step (w.addGoal g)) : Build.Runs w (pure g) fun w' g => g ∈ w'.goals :=
  Act.Runs.after (.addGoal h) (Build.runs_pure (Set.mem_insert ..))

/-- A chain of goals to the right, each of them combined with the chain of those after it. -/
theorem exists_quiet_chain (chain : List (Goal Literal) → Goal Literal)
    (hnil : (chain []).parts = [] ∧ ∀ l, chain [] ≠ .prim l) (hone : ∀ g, chain [g] = g)
    (hcons : ∀ g h gs, (chain (g :: h :: gs)).parts = [g, chain (h :: gs)] ∧ ∀ l, chain (g :: h :: gs) ≠ .prim l)
    {gs : List (Goal Literal)} (hgs : ∀ g ∈ gs, g ∈ w.goals) : ∃ w', w.Quiet w' ∧ chain gs ∈ w'.goals := by
  induction gs with
  | nil =>
    have hparts : ∀ g ∈ (chain []).parts, g ∈ w.goals := by
      rw [hnil.1]
      exact List.forall_mem_nil _
    exact ⟨_, .addGoal (.combine hnil.2 hparts), Set.mem_insert ..⟩
  | cons g gs ih =>
    obtain ⟨hg, hrest⟩ := List.forall_mem_cons.1 hgs
    cases gs with
    | nil => exact ⟨w, .refl w, (hone g).symm ▸ hg⟩
    | cons h gs =>
      obtain ⟨w₁, hw₁, hchain⟩ := ih hrest
      have hparts : ∀ k ∈ (chain (g :: h :: gs)).parts, k ∈ w₁.goals := by
        rw [(hcons g h gs).1]
        exact List.forall_mem_cons.2 ⟨hw₁.le.goals hg, List.forall_mem_singleton.2 hchain⟩
      exact ⟨_, hw₁.trans (.addGoal (.combine (hcons g h gs).2 hparts)), Set.mem_insert ..⟩

variable {gs : List (Goal Literal)}

theorem disjChain_runs (hgs : ∀ g ∈ gs, g ∈ w.goals) :
    Build.Runs w (pure (disjChain gs)) fun w' g => g ∈ w'.goals := by
  obtain ⟨w', hw', hchain⟩ := exists_quiet_chain disjChain ⟨rfl, nofun⟩ (fun _ => rfl)
    (fun _ _ _ => ⟨rfl, nofun⟩) hgs
  exact Act.Runs.after hw' (Build.runs_pure hchain)

theorem conjChain_runs (hgs : ∀ g ∈ gs, g ∈ w.goals) :
    Build.Runs w (pure (conjChain gs)) fun w' g => g ∈ w'.goals := by
  obtain ⟨w', hw', hchain⟩ := exists_quiet_chain conjChain ⟨rfl, nofun⟩ (fun _ => rfl)
    (fun _ _ _ => ⟨rfl, nofun⟩) hgs
  exact Act.Runs.after hw' (Build.runs_pure hchain)

theorem items?_of_member {t l : Term} {e : ShapeError} (h : member t l = .error e) : l.items? = .error e := by
  unfold member at h
  cases hl : l.items? with
  | error e' =>
    rw [hl] at h
    rw [Except.error.inj h]
  | ok items =>
    rw [hl] at h
    cases h

theorem items?_of_common {x : Var} {l₁ l₂ : Term} {e : ShapeError} (h : common x l₁ l₂ = .error e) :
    l₁.items? = .error e ∨ l₂.items? = .error e := by
  unfold common at h
  cases h₁ : member (.var x) l₁ with
  | error e' =>
    rw [h₁] at h
    obtain rfl := Except.error.inj h
    exact .inl (items?_of_member h₁)
  | ok g₁ =>
    cases h₂ : member (.var x) l₂ with
    | error e' =>
      rw [h₁, h₂] at h
      obtain rfl := Except.error.inj h
      exact .inr (items?_of_member h₂)
    | ok g₂ =>
      rw [h₁, h₂] at h
      cases h

/-- A list that is refused is refused with the end of its spine. -/
theorem member_runs {t l : Term} (ht : t ∈ w.terms) (hl : l ∈ w.terms) :
    Build.Runs w (do let g ← Build.ofExcept (member t l); return g.ofEquations) fun w' g => g ∈ w'.goals := by
  obtain ⟨w₁, hw₁, -, hend⟩ := World.exists_quiet_spine hl
  refine Act.Runs.after hw₁ (Build.Runs.bind (Q := fun _ g => member t l = .ok g) ?_ fun w₂ hw₂ g hg => ?_)
  · exact Build.runs_ofExcept (fun g hg => Build.runs_pure hg)
      fun e he => (Term.found_of_items? (items?_of_member he)) ▸ hend
  · exact pure_runs (.member (hw₂.le.terms (hw₁.le.terms ht)) (hw₂.le.terms (hw₁.le.terms hl)) hg)

theorem common_runs {x : Var} {l₁ l₂ : Term} (hx : .var x ∈ w.terms) (h₁ : l₁ ∈ w.terms) (h₂ : l₂ ∈ w.terms) :
    Build.Runs w (do let g ← Build.ofExcept (common x l₁ l₂); return g.ofEquations) fun w' g => g ∈ w'.goals := by
  obtain ⟨w₁, hw₁, -, hend₁⟩ := World.exists_quiet_spine h₁
  obtain ⟨w₂, hw₂, -, hend₂⟩ := World.exists_quiet_spine (hw₁.le.terms h₂)
  refine Act.Runs.after (hw₁.trans hw₂)
    (Build.Runs.bind (Q := fun _ g => common x l₁ l₂ = .ok g) ?_ fun w₃ hw₃ g hg => ?_)
  · refine Build.runs_ofExcept (fun g hg => Build.runs_pure hg) fun e he => ?_
    rcases items?_of_common he with he | he
    · exact (Term.found_of_items? he) ▸ hw₂.le.terms hend₁
    · exact (Term.found_of_items? he) ▸ hend₂
  · have hle := (hw₁.trans hw₂).le.trans hw₃.le
    exact pure_runs (.common (hle.terms hx) (hle.terms h₁) (hle.terms h₂) hg)

end Goal

namespace GoalExpr

mutual

/-- A goal expression is built by operations, its parts first. -/
theorem build_runs {w : World} {env : Env} (h : env.names.In w) :
    (g : GoalExpr) → Build.Runs w (g.build env) fun w' g => g ∈ w'.goals
  | .succeed => Goal.pure_runs (.combine nofun (List.forall_mem_nil _))
  | .fail => Goal.pure_runs (.combine nofun (List.forall_mem_nil _))
  | .eq u v =>
    (u.eval_runs h.scope).bind fun _ hw₁ _ hs => (v.eval_runs (h.scope.mono hw₁.le)).bind fun _ hw₂ _ ht =>
      Goal.pure_runs (.primitive (List.forall_mem_cons.2 ⟨hw₂.le.terms hs, List.forall_mem_singleton.2 ht⟩))
  | .disj g k =>
    (build_runs h g).bind fun _ hw₁ _ ha => (build_runs (h.mono hw₁.le) k).bind fun _ hw₂ _ hb =>
      Goal.pure_runs (.combine nofun (List.forall_mem_cons.2 ⟨hw₂.le.goals ha, List.forall_mem_singleton.2 hb⟩))
  | .conj g k =>
    (build_runs h g).bind fun _ hw₁ _ ha => (build_runs (h.mono hw₁.le) k).bind fun _ hw₂ _ hb =>
      Goal.pure_runs (.combine nofun (List.forall_mem_cons.2 ⟨hw₂.le.goals ha, List.forall_mem_singleton.2 hb⟩))
  | .disjAll gs => (buildAll_runs h gs).bind fun _ _ _ hgs => Goal.pure_runs (.combine nofun hgs)
  | .conjAll gs => (buildAll_runs h gs).bind fun _ _ _ hgs => Goal.pure_runs (.combine nofun hgs)
  | .disjChain gs => (buildAll_runs h gs).bind fun _ _ _ hgs => Goal.disjChain_runs hgs
  | .conjChain gs => (buildAll_runs h gs).bind fun _ _ _ hgs => Goal.conjChain_runs hgs
  | .member e list =>
    (e.eval_runs h.scope).bind fun _ hw₁ _ ht => (list.eval_runs (h.scope.mono hw₁.le)).bind fun _ hw₂ _ hl =>
      Goal.member_runs (hw₂.le.terms ht) hl
  | .common e₁ e₂ =>
    (e₁.eval_runs h.scope).bind fun _ hw₁ _ h₁ => (e₂.eval_runs (h.scope.mono hw₁.le)).bind fun _ hw₂ _ h₂ =>
      (Build.runs_newVar "v").bind fun _ hw₃ _ hx =>
        Goal.common_runs hx (hw₃.le.terms (hw₂.le.terms h₁)) (hw₃.le.terms h₂)
  | .commonOf e e₁ e₂ =>
    (e.evalVar_runs h.scope).bind fun _ hw₁ _ hx => (e₁.eval_runs (h.scope.mono hw₁.le)).bind fun _ hw₂ _ h₁ =>
      (e₂.eval_runs ((h.scope.mono hw₁.le).mono hw₂.le)).bind fun _ hw₃ _ h₂ =>
        Goal.common_runs (hw₃.le.terms (hw₂.le.terms hx)) (hw₃.le.terms h₁) h₂
  | .fresh names body =>
    (Env.bindAll_runs h names).bind fun _ _ _ henv => (buildAll_runs henv body).bind fun _ _ _ hgs =>
      Goal.conjChain_runs hgs
  | .saved name => Env.goal_runs h name
  | .call _ args =>
    (TermExpr.evalAll_runs h.scope args).bind fun _ _ _ hterms => Goal.pure_runs (.primitive hterms)

theorem buildAll_runs {w : World} {env : Env} (h : env.names.In w) :
    (gs : List GoalExpr) → Build.Runs w (buildAll env gs) fun w' gs => ∀ g ∈ gs, g ∈ w'.goals
  | [] => Build.runs_pure (List.forall_mem_nil _)
  | e :: es =>
    (build_runs h e).bind fun _ hw₁ _ hg => (buildAll_runs (h.mono hw₁.le) es).bind fun _ hw₂ _ hgs =>
      Build.runs_pure (List.forall_mem_cons.2 ⟨hw₂.le.goals hg, hgs⟩)

end

end GoalExpr

/-! ### Searches -/

namespace Search

/-- From every later world, the results of the search have been made if the substitution had been from which it
begins. -/
def Works (w : World) (g : Search Act Subst) : Prop :=
  ∀ w', w.Reaches w' → ∀ s ∈ w'.stores, Act.Runs w' (g s) fun w'' results => ∀ r ∈ results, r ∈ w''.stores

variable {g h : Search Act Subst}

theorem Works.mono (hg : g.Works w) (hw : w.Reaches w') : g.Works w' :=
  fun w'' hw' s hs => hg w'' (hw.trans hw') s hs

theorem runs_append {p q : Act (List Subst)}
    (hp : Act.Runs w p fun w' results => ∀ r ∈ results, r ∈ w'.stores)
    (hq : ∀ w', w.Reaches w' → Act.Runs w' q fun w'' results => ∀ r ∈ results, r ∈ w''.stores) :
    Act.Runs w (do
      let left ← p
      let right ← q
      return left ++ right : Act (List Subst)) fun w' results => ∀ r ∈ results, r ∈ w'.stores :=
  hp.bind fun w₁ hw₁ _ hleft => (hq w₁ hw₁).bind fun _ hw₂ _ hright =>
    Act.runs_pure (List.forall_mem_append.2 ⟨fun r hr => hw₂.le.stores (hleft r hr), hright⟩)

theorem Works.each (hg : g.Works w) {states : List Subst} (hstates : ∀ s ∈ states, s ∈ w.stores) :
    Act.Runs w (Search.each g states) fun w' results => ∀ r ∈ results, r ∈ w'.stores := by
  induction states generalizing w with
  | nil =>
    rw [each_nil]
    exact Act.runs_pure (List.forall_mem_nil _)
  | cons s states ih =>
    obtain ⟨hs, hrest⟩ := List.forall_mem_cons.1 hstates
    rw [each_cons]
    exact runs_append (hg w .refl s hs) fun w' hw' => ih (hg.mono hw') fun r hr => hw'.le.stores (hrest r hr)

theorem Works.disj (hg : g.Works w) (hh : h.Works w) : (Search.disj g h).Works w :=
  fun w' hw' s hs => runs_append (hg w' hw' s hs) fun w'' hw'' =>
    hh w'' (hw'.trans hw'') s (hw''.le.stores hs)

theorem Works.conj (hg : g.Works w) (hh : h.Works w) : (Search.conj g h).Works w :=
  fun w' hw' s hs => (hg w' hw' s hs).bind fun _ hw'' _ hstates => (hh.mono (hw'.trans hw'')).each hstates

theorem works_succeed : Works w succeed :=
  fun _ _ _ hs => Act.runs_pure (List.forall_mem_singleton.2 hs)

theorem works_fail : Works w fail :=
  fun _ _ _ _ => Act.runs_pure (List.forall_mem_nil _)

theorem works_disjAll {gs : List (Search Act Subst)} (hgs : ∀ g ∈ gs, g.Works w) : (disjAll gs).Works w := by
  induction gs with
  | nil =>
    rw [disjAll_nil]
    exact works_fail
  | cons g gs ih =>
    obtain ⟨hg, hrest⟩ := List.forall_mem_cons.1 hgs
    rw [disjAll_cons]
    exact hg.disj (ih hrest)

theorem runs_levels {gs : List (Search Act Subst)} (hgs : ∀ g ∈ gs, g.Works w) {states : List Subst}
    (hstates : ∀ s ∈ states, s ∈ w.stores) :
    Act.Runs w (levels gs states) fun w' results => ∀ r ∈ results, r ∈ w'.stores := by
  induction gs generalizing w states with
  | nil =>
    rw [levels_nil]
    exact Act.runs_pure hstates
  | cons g gs ih =>
    obtain ⟨hg, hrest⟩ := List.forall_mem_cons.1 hgs
    rw [levels_cons]
    exact (hg.each hstates).bind fun _ hw' _ hnext => ih (fun g hg => (hrest g hg).mono hw') hnext

theorem works_conjAll {gs : List (Search Act Subst)} (hgs : ∀ g ∈ gs, g.Works w) : (conjAll gs).Works w :=
  fun _ hw' _ hs => runs_levels (fun g hg => (hgs g hg).mono hw') (List.forall_mem_singleton.2 hs)

end Search

/-! ### Applying goals -/

/-- Whatever had a name at some moment has been made. -/
def History.In (w : World) (history : History) : Prop :=
  ∀ names ∈ history.moments, names.In w

theorem Names.in_empty : Names.In w {} :=
  ⟨⟨List.forall_mem_nil _, List.forall_mem_nil _⟩, List.forall_mem_nil _⟩

namespace History

variable {history : History}

theorem In.mono (h : history.In w) (hw : w.Le w') : history.In w' :=
  fun names hnames => (h names hnames).mono hw

theorem In.names (h : history.In w) (moment : Nat) : (history.names moment).In w := by
  unfold History.names
  cases hmoment : history.moments[moment]? with
  | none => exact Names.in_empty
  | some names => exact h names (Array.mem_of_getElem? hmoment)

end History

namespace Call

variable {history : History} {c : Call}

theorem scope_in (h : history.In w) (hargs : ∀ t ∈ c.args, t ∈ w.terms) (r : Relation) : (c.scope history r).In w := by
  have hfold : ∀ (bs : List (String × Term)) (scope : Scope), scope.In w → (∀ b ∈ bs, b.2 ∈ w.terms) →
      (bs.foldl (fun scope p => scope.addTerm p.1 p.2) scope).In w := by
    intro bs
    induction bs with
    | nil => exact fun _ hscope _ => hscope
    | cons b bs ih =>
      intro scope hscope hbs
      obtain ⟨hb, hrest⟩ := List.forall_mem_cons.1 hbs
      exact ih _ (hscope.addTerm hb b.1) hrest
  exact hfold _ _ (h.names c.moment).scope fun b hb => hargs b.2 (List.of_mem_zip hb).2

/-- The body of a called relation is made by operations on the arguments and on what had names when the call was
made. -/
theorem build_runs (h : history.In w) (hargs : ∀ t ∈ c.args, t ∈ w.terms) :
    Build.Runs w (c.build history) fun w' g => g ∈ w'.goals := by
  have hrelation : Build.Runs w (history.relation c.relation) fun _ _ => True := by
    unfold History.relation
    split
    · exact Build.runs_pure trivial
    · exact Build.runs_throw nofun
  refine hrelation.bind fun w₁ hw₁ r _ => GoalExpr.build_runs ?_ r.body
  have h₁ := h.mono hw₁.le
  exact ⟨scope_in h₁ (fun t ht => hw₁.le.terms (hargs t ht)) r, (h₁.names c.moment).goals⟩

end Call

/-- Unifying draws no variables. -/
theorem Solves.created_not_mem {s : Subst} {pending : List Equation} {o : Outcome} (h : Solves s pending o) (x : Var) :
    .created x ∉ o.events := by
  induction h with
  | bind _ _ _ _ ih => exact List.not_mem_cons_of_ne_of_not_mem nofun ih
  | agree _ _ _ _ ih => exact ih
  | split _ _ _ _ ih => exact ih
  | done | clash => simp

theorem Equation.search_runs {e : Equation} {s : Subst} (hu : e.lhs ∈ w.terms) (hv : e.rhs ∈ w.terms)
    (hs : s ∈ w.stores) (fuel : Nat) :
    Act.Runs w (liftM (e.search fuel s) : Act (List Subst)) fun w' results => ∀ r ∈ results, r ∈ w'.stores := by
  intro st past results st' past' hst hrun
  rw [Act.lift_apply, Option.bind_eq_some_iff] at hrun
  obtain ⟨⟨found, past₁⟩, hfound, heq⟩ := hrun
  obtain ⟨⟨rfl, rfl⟩, rfl⟩ : (found = results ∧ st = st') ∧ past₁ = past' := by simpa using heq
  unfold Equation.search at hfound
  split at hfound
  · rename_i o ho
    obtain ⟨rfl, rfl⟩ : o.store?.toList = found ∧ o.events.reverse ++ past = past₁ := by simpa using hfound
    have hfits : w.Fits st (o.events.reverse ++ past) := by
      refine ⟨hst.supply, hst.fault, fun x hx => ?_⟩
      rcases List.mem_append.1 hx with hx | hx
      · exact ((solves_of_solve? ho).created_not_mem x (List.mem_reverse.1 hx)).elim
      · exact hst.created x hx
    cases hstore : o.store? with
    | none => exact ⟨w, .refl, hfits, List.forall_mem_nil _⟩
    | some s' =>
      have hquiet : w.Quiet (w.addStore s') := .addStore (.unify hs hu hv ho hstore)
      exact ⟨_, hquiet.reaches, hfits.later hquiet.le (hquiet.supply.trans hst.supply),
        List.forall_mem_singleton.2 (Set.mem_insert ..)⟩
  · cases hfound

namespace Goal

variable {history : History}

/-- What the primitive goals of a goal do by operations, the goal does by operations.  It is taken apart first. -/
theorem search_works_of_prim {run : Literal → Search Act Subst}
    (hrun : ∀ w l, history.In w → .prim l ∈ w.goals → (run l).Works w) (g : Goal Literal) :
    ∀ w, history.In w → g ∈ w.goals → (g.search run).Works w := by
  have apart : ∀ {w : World} {g : Goal Literal} {f : Search Act Subst}, g ∈ w.goals →
      (∀ w₁, w.Reaches w₁ → (∀ k ∈ g.parts, k ∈ w₁.goals) → f.Works w₁) → f.Works w := by
    intro w g f hg hparts w' hw' s hs
    obtain ⟨w₁, hw₁, hall⟩ := World.exists_quiet_parts (hw'.le.goals hg)
    exact Act.Runs.after hw₁ (hparts w₁ (hw'.trans hw₁.reaches) hall w₁ .refl s (hw₁.le.stores hs))
  induction g using Goal.ind with
  | prim l => exact fun w h hl => hrun w l h hl
  | succeed => exact fun _ _ _ => Search.works_succeed
  | fail => exact fun _ _ _ => Search.works_fail
  | disj g k ihg ihk =>
    refine fun w h hdisj => apart hdisj fun w₁ hw₁ hparts => ?_
    obtain ⟨hg, hk⟩ := List.forall_mem_cons.1 hparts
    have h₁ := h.mono hw₁.le
    exact (ihg w₁ h₁ hg).disj (ihk w₁ h₁ (List.forall_mem_singleton.1 hk))
  | conj g k ihg ihk =>
    refine fun w h hconj => apart hconj fun w₁ hw₁ hparts => ?_
    obtain ⟨hg, hk⟩ := List.forall_mem_cons.1 hparts
    have h₁ := h.mono hw₁.le
    exact (ihg w₁ h₁ hg).conj (ihk w₁ h₁ (List.forall_mem_singleton.1 hk))
  | disjAll gs ih =>
    refine fun w h hdisj => apart hdisj fun w₁ hw₁ hparts => ?_
    rw [search, searches_eq_map]
    exact Search.works_disjAll (List.forall_mem_map.2 fun g hg => ih g hg w₁ (h.mono hw₁.le) (hparts g hg))
  | conjAll gs ih =>
    refine fun w h hconj => apart hconj fun w₁ hw₁ hparts => ?_
    rw [search, searches_eq_map]
    exact Search.works_conjAll (List.forall_mem_map.2 fun g hg => ih g hg w₁ (h.mono hw₁.le) (hparts g hg))

end Goal

theorem Literal.search_works {history : History} (fuel : Nat) (l : Literal) :
    ∀ w, history.In w → .prim l ∈ w.goals → (Literal.search history fuel l).Works w := by
  have heq : ∀ (n : Nat) (e : Equation) w, .prim (.eq e) ∈ w.goals →
      Search.Works w fun s => (liftM (e.search n s) : Act (List Subst)) := by
    intro n e w he w' hw' s hs
    obtain ⟨w₁, hw₁, hterms⟩ := World.exists_quiet_terms (hw'.le.goals he)
    obtain ⟨hu, hv⟩ := List.forall_mem_cons.1 hterms
    exact Act.Runs.after hw₁ (e.search_runs hu (List.forall_mem_singleton.1 hv) (hw₁.le.stores hs) n)
  induction fuel generalizing l with
  | zero =>
    cases l with
    | eq e => exact fun w _ he => heq 0 e w he
    | call c =>
      intro w _ _ w' _ s _ st past results st' past' _ hrun
      cases hrun
  | succ fuel ih =>
    cases l with
    | eq e => exact fun w _ he => heq (fuel + 1) e w he
    | call c =>
      -- the body is made first, and it is then a goal whose calls have less fuel
      intro w h hc w' hw' s hs
      obtain ⟨w₁, hw₁, hargs⟩ := World.exists_quiet_terms (hw'.le.goals hc)
      have h₁ := (h.mono hw'.le).mono hw₁.le
      refine Act.Runs.after hw₁ ?_
      rw [Literal.search]
      refine Act.Runs.bind (Call.build_runs h₁ hargs) fun w₂ hw₂ built hbuilt => ?_
      cases built with
      | ok g =>
        exact Goal.search_works_of_prim (fun w l h hl => ih l w h hl) g w₂ (h₁.mono hw₂.le) hbuilt w₂ .refl s
          (hw₂.le.stores (hw₁.le.stores hs))
      | error f => exact (Act.runs_note hbuilt).bind fun _ _ _ _ => Act.runs_pure (List.forall_mem_nil _)

/-- Applying a goal is done by operations, and so is making the bodies of the relations that are called on the way. -/
theorem Goal.search_works {history : History} (h : history.In w) (fuel : Nat) {g : Goal Literal} (hg : g ∈ w.goals) :
    (g.search (Literal.search history fuel)).Works w :=
  Goal.search_works_of_prim (fun w l h hl => Literal.search_works fuel l w h hl) g w h hg

end RelLogic
