import RelLogic.Proofs.Invariant
import RelLogic.Proofs.World
import RelLogic.Template

/-!
# Programs as sequences of operations

Whatever a program of a session does, it does by operations on what there is.  `Act.Runs w p Q` says that, whenever the
act `p` comes to an end from a state that fits the world `w`, operations lead from `w` to a world that fits the state
after it, and `Q` holds there of the result.  The same is said of programs that may stop at a fault, whose terms are
then in the world (`Build.Runs`), and of programs that only draw from the supply (`Fresh.Makes`).

Running one program after another is one sequence of operations after another.  So there is one lemma for each function
that makes a term or evaluates one.  Each of them says that what the function gives has been made, if what it was given
had been made.
-/

namespace RelLogic

variable {α β : Type} {w w' : World}

/-! ### States and worlds -/

/-- The term in which the error was found. -/
def ShapeError.found : ShapeError → Term
  | .notAPair _ t => t
  | .improperList t => t

/-- The terms that a fault reports. -/
def Fault.terms : Fault → List Term
  | .shape e => [e.found]
  | .notAVariable t => [t]
  | _ => []

/-- The terms that the fault reports have been made. -/
def Fault.In (w : World) (f : Fault) : Prop :=
  ∀ t ∈ f.terms, t ∈ w.terms

theorem Fault.In.mono {f : Fault} (h : f.In w) (hw : w.Le w') : f.In w' :=
  fun t ht => hw.terms (h t ht)

/-- The world has the supply of the state, the terms of the fault that was noted, and the variables that were recorded
as created. -/
structure World.Fits (w : World) (st : Progress) (past : List Event) : Prop where
  supply : w.supply = st.supply
  fault : ∀ f, st.fault? = some f → f.In w
  created : ∀ x, .created x ∈ past → x ∈ w.drawn

/-- A state in which nothing else has changed fits a later world with its supply. -/
theorem World.Fits.later {st : Progress} {past : List Event} (h : w.Fits st past) (hw : w.Le w') {σ : Supply}
    (hsupply : w'.supply = σ) : w'.Fits { st with supply := σ } past :=
  ⟨hsupply, fun f hf => (h.fault f hf).mono hw, fun x hx => hw.drawn (h.created x hx)⟩

/-! ### Drawing from the supply -/

/-- The program does operations that draw no variables and lead to a world in which its result is as said. -/
def Fresh.Makes (w : World) (p : Fresh α) (Q : World → α → Prop) : Prop :=
  ∃ w', w.Reaches w' ∧ (w'.supply = (p w.supply).2 ∧ w'.drawn = w.drawn) ∧ Q w' (p w.supply).1

namespace Fresh

variable {p : Fresh α} {f : α → Fresh β} {Q : World → α → Prop} {Q' : World → β → Prop} {a : α}

theorem makes_pure (h : Q w a) : Makes w (pure a) Q :=
  ⟨w, .refl, ⟨rfl, rfl⟩, h⟩

theorem Makes.bind (hp : Makes w p Q) (hf : ∀ w', w.Reaches w' → ∀ a, Q w' a → Makes w' (f a) Q') :
    Makes w (p >>= f) Q' := by
  obtain ⟨w₁, hw₁, ⟨hsupply, hdrawn⟩, ha⟩ := hp
  obtain ⟨w₂, hw₂, ⟨hsupply₂, hdrawn₂⟩, hb⟩ := hf w₁ hw₁ _ ha
  rw [hsupply] at hsupply₂ hb
  exact ⟨w₂, hw₁.trans hw₂, ⟨hsupply₂, hdrawn₂.trans hdrawn⟩, hb⟩

/-- What one operation draws. -/
theorem makes_of_step {p : Fresh Term} (h : World.Step w (w.draw (p w.supply))) :
    Makes w p fun w' t => t ∈ w'.terms :=
  ⟨_, .single h, ⟨rfl, rfl⟩, Set.mem_insert ..⟩

/-- The operations before a program may be any that draw nothing. -/
theorem Makes.after (h : w.Quiet w') (hp : Makes w' p Q) : Makes w p Q := by
  obtain ⟨w₁, hw₁, ⟨hsupply, hdrawn⟩, ha⟩ := hp
  rw [h.supply] at hsupply ha
  exact ⟨w₁, h.reaches.trans hw₁, ⟨hsupply, hdrawn.trans h.drawn⟩, ha⟩

end Fresh

/-! ### Acts -/

/-- Whenever the act comes to an end, it has done operations that lead to a world in which its result is as said. -/
def Act.Runs (w : World) (p : Act α) (Q : World → α → Prop) : Prop :=
  ∀ st past a st' past', w.Fits st past → p st past = some ((a, st'), past') →
    ∃ w', w.Reaches w' ∧ w'.Fits st' past' ∧ Q w' a

namespace Act

variable {p : Act α} {f : α → Act β} {Q : World → α → Prop} {Q' : World → β → Prop} {a : α}

theorem runs_pure (h : Q w a) : Runs w (pure a) Q := by
  intro st past b st' past' hst hrun
  have hrun : some ((a, st), past) = some ((b, st'), past') := hrun
  obtain ⟨⟨rfl, rfl⟩, rfl⟩ : (a = b ∧ st = st') ∧ past = past' := by simpa using hrun
  exact ⟨w, .refl, hst, h⟩

theorem Runs.bind (hp : Runs w p Q) (hf : ∀ w', w.Reaches w' → ∀ a, Q w' a → Runs w' (f a) Q') :
    Runs w (p >>= f) Q' := by
  intro st past b st' past' hst hrun
  rw [bind_apply, Option.bind_eq_some_iff] at hrun
  obtain ⟨⟨⟨a, st₁⟩, past₁⟩, ha, hb⟩ := hrun
  obtain ⟨w₁, hw₁, hst₁, hQ⟩ := hp st past a st₁ past₁ hst ha
  obtain ⟨w₂, hw₂, hst₂, hQ'⟩ := hf w₁ hw₁ a hQ st₁ past₁ b st' past' hst₁ hb
  exact ⟨w₂, hw₁.trans hw₂, hst₂, hQ'⟩

theorem runs_draw {q : Fresh α} (h : Fresh.Makes w q Q) : Runs w (draw q) Q := by
  intro st past a st' past' hst hrun
  obtain ⟨w', hw', ⟨hsupply, -⟩, ha⟩ := h
  rw [hst.supply] at hsupply ha
  have hrun : some (((q st.supply).1, { st with supply := (q st.supply).2 }), past) = some ((a, st'), past') := hrun
  obtain ⟨⟨rfl, rfl⟩, rfl⟩ : ((q st.supply).1 = a ∧ _ = st') ∧ past = past' := by simpa using hrun
  exact ⟨w', hw', hst.later hw'.le hsupply, ha⟩

theorem runs_note {f : Fault} (h : f.In w) : Runs w (note f) fun _ _ => True := by
  rintro ⟨supply, fault?⟩ past a st' past' hst hrun
  cases fault? with
  | none =>
    obtain ⟨⟨-, rfl⟩, rfl⟩ : (() = a ∧ _ = st') ∧ past = past' := by simpa using Option.some.inj hrun
    refine ⟨w, .refl, ⟨hst.supply, fun f' hf' => ?_, hst.created⟩, trivial⟩
    obtain rfl := Option.some.inj hf'
    exact h
  | some f' =>
    obtain ⟨⟨-, rfl⟩, rfl⟩ : (() = a ∧ _ = st') ∧ past = past' := by simpa using Option.some.inj hrun
    exact ⟨w, .refl, hst, trivial⟩

/-- The operations before an act may be any that draw nothing. -/
theorem Runs.after (h : w.Quiet w') (hp : Runs w' p Q) : Runs w p Q := by
  intro st past a st' past' hst hrun
  obtain ⟨w₁, hw₁, hst₁, ha⟩ := hp st past a st' past' (hst.later h.le (h.supply.trans hst.supply)) hrun
  exact ⟨w₁, h.reaches.trans hw₁, hst₁, ha⟩

end Act

/-! ### Programs that may stop at a fault -/

/-- The result is as said, or the terms of the fault have been made. -/
def Build.Result (Q : World → α → Prop) (w : World) : Except Fault α → Prop
  | .ok a => Q w a
  | .error f => f.In w

/-- Whenever the program comes to an end, it has done operations that lead to a world in which its result is as said, or
in which there are the terms of the fault that it stopped at. -/
def Build.Runs (w : World) (p : Build α) (Q : World → α → Prop) : Prop :=
  Act.Runs w p.run (Result Q)

namespace Build

variable {p : Build α} {f : α → Build β} {Q : World → α → Prop} {Q' : World → β → Prop} {a : α}

theorem runs_pure (h : Q w a) : Runs w (pure a) Q :=
  show Act.Runs w (pure (Except.ok a)) (Result Q) from Act.runs_pure h

theorem runs_throw {e : Fault} (h : e.In w) : Runs w (throw e) Q :=
  show Act.Runs w (pure (Except.error e)) (Result Q) from Act.runs_pure h

theorem Runs.bind (hp : Runs w p Q) (hf : ∀ w', w.Reaches w' → ∀ a, Q w' a → Runs w' (f a) Q') :
    Runs w (p >>= f) Q' := by
  show Act.Runs w (p.run >>= ExceptT.bindCont f) (Result Q')
  refine Act.Runs.bind hp fun w' hw' r hr => ?_
  cases r with
  | ok a => exact hf w' hw' a hr
  | error e => exact runs_throw hr

theorem runs_lift {q : Act α} (h : Act.Runs w q Q) : Runs w (ExceptT.lift q) Q := by
  show Act.Runs w (q >>= fun a => pure (Except.ok a)) (Result Q)
  exact h.bind fun _ _ a ha => Act.runs_pure ha

theorem runs_draw {q : Fresh α} (h : Fresh.Makes w q Q) : Runs w (draw q) Q :=
  runs_lift (Act.runs_draw h)

theorem runs_newVar (label : String) : Runs w (newVar label) fun w' x => .var x ∈ w'.terms := by
  refine runs_lift ?_
  rintro ⟨_, fault?⟩ past x st' past' hst hrun
  obtain rfl : w.supply = _ := hst.supply
  have hrun : some (((Var.fresh label w.supply).1, ⟨(Var.fresh label w.supply).2, fault?⟩),
    .created (Var.fresh label w.supply).1 :: past) = some ((x, st'), past') := hrun
  obtain ⟨⟨rfl, rfl⟩, rfl⟩ : (_ = x ∧ _ = st') ∧ _ = past' := by simpa using hrun
  have hlater := hst.later (World.Step.newVar label).le (σ := (Var.fresh label w.supply).2) rfl
  refine ⟨w.drawVar label, .single (.newVar label), ⟨rfl, hlater.fault, fun x hx => ?_⟩, Set.mem_insert ..⟩
  rcases List.mem_cons.1 hx with hx | hx
  · rw [Event.created.inj hx]
    exact List.mem_cons_self ..
  · exact hlater.created x hx

/-- A term that one operation makes, if it makes one. -/
theorem runs_ofOption {t? : Option Term} (h : ∀ t, t? = some t → World.Step w (w.addTerm t)) :
    Runs w (ofOption t?) fun w' t => t ∈ w'.terms := by
  cases t? with
  | none =>
    refine runs_lift fun st past a st' past' _ hrun => ?_
    cases hrun
  | some t => exact Act.Runs.after (.addTerm (h t rfl)) (runs_pure (Set.mem_insert ..))

/-- A term that one operation draws, if it draws one. -/
theorem runs_attempt {q : Fresh? Term} (h : ∀ r, q w.supply = some r → World.Step w (w.draw r)) :
    Runs w (attempt q) fun w' t => t ∈ w'.terms := by
  refine runs_lift fun st past a st' past' hst hrun => ?_
  unfold Act.attempt at hrun
  split at hrun
  · rename_i t σ hq
    obtain ⟨⟨rfl, rfl⟩, rfl⟩ : (t = a ∧ _ = st') ∧ past = past' := by simpa using hrun
    have hstep := h (t, σ) (hst.supply ▸ hq)
    exact ⟨_, .single hstep, hst.later hstep.le rfl, Set.mem_insert ..⟩
  · cases hrun

theorem runs_ofExcept {r : Except ShapeError α} (hok : ∀ a, r = .ok a → Runs w (pure a) Q)
    (herror : ∀ e, r = .error e → e.found ∈ w.terms) : Runs w (ofExcept r) Q := by
  cases r with
  | ok a => exact hok a rfl
  | error e => exact runs_throw (List.forall_mem_singleton.2 (herror e rfl))

/-- One program for each of many things, from left to right. -/
theorem runs_mapM {γ : Type} {f : γ → Build α} {P : World → α → Prop}
    (hmono : ∀ {w w' : World} {a : α}, w.Le w' → P w a → P w' a) {cs : List γ}
    (hf : ∀ w', w.Reaches w' → ∀ c ∈ cs, Runs w' (f c) P) :
    Runs w (cs.mapM f) fun w' as => ∀ a ∈ as, P w' a := by
  induction cs generalizing w with
  | nil =>
    rw [List.mapM_nil]
    exact runs_pure (List.forall_mem_nil _)
  | cons c cs ih =>
    rw [List.mapM_cons]
    refine (hf w .refl c (List.mem_cons_self ..)).bind fun w₁ hw₁ a ha => ?_
    refine (ih fun w' hw' c hc => hf w' (hw₁.trans hw') c (List.mem_cons_of_mem _ hc)).bind fun w₂ hw₂ as has => ?_
    exact runs_pure (List.forall_mem_cons.2 ⟨hmono hw₂.le ha, has⟩)

/-- A program that goes through many things and keeps what is said of its state. -/
theorem runs_foldlM {γ : Type} {f : α → γ → Build α} {P : World → α → Prop} {cs : List γ}
    (hf : ∀ w', w.Reaches w' → ∀ a, P w' a → ∀ c ∈ cs, Runs w' (f a c) P) (ha : P w a) :
    Runs w (cs.foldlM f a) P := by
  induction cs generalizing w a with
  | nil => exact runs_pure ha
  | cons c cs ih =>
    rw [List.foldlM_cons]
    exact (hf w .refl a ha c (List.mem_cons_self ..)).bind fun w₁ hw₁ a ha =>
      ih (fun w' hw' a ha c hc => hf w' (hw₁.trans hw') a ha c (List.mem_cons_of_mem _ hc)) ha

end Build

/-! ### Lists of new pairs and atoms -/

namespace Term

open Fresh

theorem cons_makes {a d : Term} (ha : a ∈ w.terms) (hd : d ∈ w.terms) :
    Makes w (cons a d) fun w' t => t ∈ w'.terms :=
  makes_of_step (.cons ha hd)

theorem ofAtom_makes (a : Atom) : Makes w (ofAtom a) fun w' t => t ∈ w'.terms :=
  makes_of_step (.atom a)

theorem consAll_makes {items : List Term} {rest : Term} (hitems : ∀ t ∈ items, t ∈ w.terms) (hrest : rest ∈ w.terms) :
    Makes w (consAll items rest) fun w' t => t ∈ w'.terms := by
  induction items generalizing w rest with
  | nil => exact makes_pure hrest
  | cons x xs ih =>
    obtain ⟨hx, hxs⟩ := List.forall_mem_cons.1 hitems
    exact (cons_makes hx hrest).bind fun w' hw' t ht => ih (fun y hy => hw'.le.terms (hxs y hy)) ht

theorem chain_makes {items : List Term} {rest : Term} (hitems : ∀ t ∈ items, t ∈ w.terms) (hrest : rest ∈ w.terms) :
    Makes w (chain items rest) fun w' t => t ∈ w'.terms :=
  consAll_makes (fun t ht => hitems t (List.mem_reverse.1 ht)) hrest

theorem ofList_makes {items : List Term} (hitems : ∀ t ∈ items, t ∈ w.terms) :
    Makes w (ofList items) fun w' t => t ∈ w'.terms := by
  have hnil : w.Quiet (w.addTerm .nil) := .addTerm .nil
  exact (chain_makes (fun t ht => hnil.le.terms (hitems t ht)) (Set.mem_insert ..)).after hnil

theorem atomsAfter_makes {made : List Term} (hmade : ∀ t ∈ made, t ∈ w.terms) (values : List Atom) :
    Makes w (atomsAfter made values) fun w' ts => ∀ t ∈ ts, t ∈ w'.terms := by
  induction values generalizing w made with
  | nil => exact makes_pure fun t ht => hmade t (List.mem_reverse.1 ht)
  | cons a values ih =>
    exact (ofAtom_makes a).bind fun w' hw' t ht =>
      ih (List.forall_mem_cons.2 ⟨ht, fun u hu => hw'.le.terms (hmade u hu)⟩)

theorem ofAtoms_makes (values : List Atom) : Makes w (ofAtoms values) fun w' t => t ∈ w'.terms :=
  (atomsAfter_makes (List.forall_mem_nil _) values).bind fun _ _ _ hitems => ofList_makes hitems

theorem wrap_makes (n : Nat) {t : Term} (ht : t ∈ w.terms) : Makes w (wrap n t) fun w' u => u ∈ w'.terms := by
  induction n generalizing w t with
  | zero => exact makes_pure ht
  | succ n ih =>
    have hnil : w.Quiet (w.addTerm .nil) := .addTerm .nil
    exact .after hnil ((cons_makes (hnil.le.terms ht) (Set.mem_insert ..)).bind fun _ _ _ hu => ih hu)

end Term

theorem Template.fill?_makes {items : List Term} (hitems : ∀ t ∈ items, t ∈ w.terms) (template : Template) :
    Fresh.Makes w (template.fill? items) fun w' t? => ∀ t, t? = some t → t ∈ w'.terms := by
  induction template generalizing w with
  | nil =>
    refine .after (.addTerm .nil) (Fresh.makes_pure ?_)
    rintro t ⟨⟩
    exact Set.mem_insert ..
  | item n => exact Fresh.makes_pure fun t ht => hitems t (List.mem_of_getElem? ht)
  | pair a d iha ihd =>
    refine (iha hitems).bind fun w₁ hw₁ a? ha =>
      (ihd fun t ht => hw₁.le.terms (hitems t ht)).bind fun w₂ hw₂ d? hd => ?_
    split
    · rename_i car cdr
      refine (Term.cons_makes (hw₂.le.terms (ha car rfl)) (hd cdr rfl)).bind fun _ _ t ht => Fresh.makes_pure ?_
      rintro _ ⟨⟩
      exact ht
    · exact Fresh.makes_pure nofun

/-! ### Term expressions -/

/-- The terms and the substitutions that have names have been made. -/
structure Scope.In (w : World) (scope : Scope) : Prop where
  terms : ∀ e ∈ scope.terms, e.2 ∈ w.terms
  stores : ∀ e ∈ scope.stores, e.2 ∈ w.stores

theorem mem_of_lookup_eq_some {γ : Type} {entries : List (String × γ)} {name : String} {c : γ}
    (h : entries.lookup name = some c) : (name, c) ∈ entries := by
  obtain ⟨before, after, rfl, -⟩ := List.lookup_eq_some_iff.1 h
  simp

namespace Scope

variable {scope : Scope}

theorem In.mono (h : scope.In w) (hw : w.Le w') : scope.In w' :=
  ⟨fun e he => hw.terms (h.terms e he), fun e he => hw.stores (h.stores e he)⟩

theorem In.addTerm (h : scope.In w) {t : Term} (ht : t ∈ w.terms) (name : String) : (scope.addTerm name t).In w :=
  ⟨List.forall_mem_cons.2 ⟨ht, h.terms⟩, h.stores⟩

theorem In.addStore (h : scope.In w) {s : Subst} (hs : s ∈ w.stores) (name : String) : (scope.addStore name s).In w :=
  ⟨h.terms, List.forall_mem_cons.2 ⟨hs, h.stores⟩⟩

theorem In.term_runs (h : scope.In w) (name : String) :
    Build.Runs w (scope.term name) fun w' t => t ∈ w'.terms := by
  unfold term
  split
  · exact Build.runs_pure (h.terms _ (mem_of_lookup_eq_some ‹_›))
  · exact Build.runs_throw nofun

theorem In.store_runs (h : scope.In w) (name? : Option String) :
    Build.Runs w (scope.store name?) fun w' s => s ∈ w'.stores := by
  unfold store
  split
  · exact Act.Runs.after (.addStore .empty) (Build.runs_pure (Set.mem_insert ..))
  · split
    · exact Build.runs_pure (h.stores _ (mem_of_lookup_eq_some ‹_›))
    · exact Build.runs_throw nofun

end Scope

theorem Term.variable_runs {t : Term} (ht : t ∈ w.terms) :
    Build.Runs w t.variable fun w' x => .var x ∈ w'.terms := by
  cases t with
  | var x => exact Build.runs_pure ht
  | _ => exact Build.runs_throw (List.forall_mem_singleton.2 ht)

theorem Term.part?_runs {t : Term} (ht : t ∈ w.terms) (p : Part) :
    Build.Runs w (Build.ofExcept (t.part? p)) fun w' u => u ∈ w'.terms := by
  refine Build.runs_ofExcept (fun u hu => ?_) fun e he => ?_
  · exact Act.Runs.after (.addTerm (.part ht hu)) (Build.runs_pure (Set.mem_insert ..))
  · cases t with
    | pair => cases p <;> cases he
    | _ =>
      obtain rfl := Except.error.inj he
      exact ht

namespace TermExpr

variable {scope : Scope}

mutual

/-- By induction on the expression.  Its parts are evaluated from left to right, each in a later world, in which what
the earlier ones gave is still there. -/
theorem eval_runs {w : World} (h : scope.In w) :
    (e : TermExpr) → Build.Runs w (e.eval scope) fun w' t => t ∈ w'.terms
  | .nil => Act.Runs.after (.addTerm .nil) (Build.runs_pure (Set.mem_insert ..))
  | .atom a => Build.runs_draw (Term.ofAtom_makes a)
  | .name n => h.term_runs n
  | .chain items rest =>
    (evalAfter_runs h (List.forall_mem_nil _) items).bind fun _ hw₁ _ hxs =>
      (eval_runs (h.mono hw₁.le) rest).bind fun _ hw₂ _ ht =>
        Build.runs_draw (Term.chain_makes (fun x hx => hw₂.le.terms (hxs x hx)) ht)
  | .range first stop => Build.runs_draw (Term.ofAtoms_makes (Atom.range first stop))
  | .copies _ item =>
    (eval_runs h item).bind fun _ _ _ hx =>
      Build.runs_draw (Term.ofList_makes fun _ ht => (List.eq_of_mem_replicate ht) ▸ hx)
  | .wrapped depth core => (eval_runs h core).bind fun _ _ _ ht => Build.runs_draw (Term.wrap_makes depth.toNat ht)
  | .part p whole => (eval_runs h whole).bind fun _ _ _ ht => Term.part?_runs ht p
  | .lookup store x =>
    (h.store_runs store).bind fun _ hw₁ _ hs => (eval_runs (h.mono hw₁.le) x).bind fun _ hw₂ _ ht =>
      (Term.variable_runs ht).bind fun _ hw₃ _ hv =>
        Build.runs_ofOption fun _ hu => .lookup (hw₃.le.stores (hw₂.le.stores hs)) hv hu
  | .walk store e =>
    (h.store_runs store).bind fun _ hw₁ _ hs => (eval_runs (h.mono hw₁.le) e).bind fun _ hw₂ _ ht =>
      Build.runs_ofOption fun _ hu => .walk (hw₂.le.stores hs) ht hu
  | .resolve store e =>
    (h.store_runs store).bind fun _ hw₁ _ hs => (eval_runs (h.mono hw₁.le) e).bind fun _ hw₂ _ ht =>
      Build.runs_attempt fun _ hr => .resolve (hw₂.le.stores hs) ht hr

theorem evalAfter_runs {w : World} (h : scope.In w) {made : List Term} (hmade : ∀ t ∈ made, t ∈ w.terms) :
    (es : List TermExpr) → Build.Runs w (evalAfter scope made es) fun w' ts => ∀ t ∈ ts, t ∈ w'.terms
  | [] => Build.runs_pure fun t ht => hmade t (List.mem_reverse.1 ht)
  | e :: es =>
    (eval_runs h e).bind fun _ hw₁ _ ht => evalAfter_runs (h.mono hw₁.le)
      (List.forall_mem_cons.2 ⟨ht, fun u hu => hw₁.le.terms (hmade u hu)⟩) es

end

theorem evalAll_runs (h : scope.In w) (es : List TermExpr) :
    Build.Runs w (evalAll scope es) fun w' ts => ∀ t ∈ ts, t ∈ w'.terms :=
  evalAfter_runs h (List.forall_mem_nil _) es

theorem evalVar_runs (h : scope.In w) (e : TermExpr) :
    Build.Runs w (evalVar scope e) fun w' x => .var x ∈ w'.terms :=
  (eval_runs h e).bind fun _ _ _ ht => Term.variable_runs ht

end TermExpr

end RelLogic
