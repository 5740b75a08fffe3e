import Mathlib.Data.List.Perm.Basic
import RelLogic.Proofs.Search

/-!
# Combinators of many parts and chains of two

A disjunction of many searches is the chain of disjunctions of two that ends in failure, in every monad: the parts are
run in one order.  A conjunction of many searches sends all states through one part before any of them meets the next,
while the chain of conjunctions of two takes each state to its end before it takes the next one.  Where the parts are
plain functions of the state, both have the same results (`Search.levels_eq_flatMap`), and each part is applied to the
same states in the same order, the results of the conjunction of the parts before it.  So what the parts record on the
way is the same but for its order (`Search.combinators_eq_chains`).
-/

namespace RelLogic

namespace Search

/-! ### Chains of disjunctions -/

theorem disjAll_eq_foldr {m : Type → Type} [Monad m] [LawfulMonad m] {σ : Type} (gs : List (Search m σ)) :
    disjAll gs = gs.foldr disj fail := by
  induction gs with
  | nil => exact disjAll_nil
  | cons g gs ih => rw [disjAll_cons, ih, List.foldr_cons]

variable {σ ε α β : Type}

/-! ### Plain searches -/

theorem each_eq_flatMap (g : Search Id σ) (states : List σ) : each g states = states.flatMap g := by
  induction states with
  | nil => exact each_nil g
  | cons s states ih =>
    rw [each_cons, ih, List.flatMap_cons]
    rfl

theorem levels_cons_eq (g : Search Id σ) (gs : List (Search Id σ)) (states : List σ) :
    levels (g :: gs) states = levels gs (states.flatMap g) := by
  rw [levels_cons, each_eq_flatMap]
  rfl

theorem foldr_conj_cons_eq (g : Search Id σ) (gs : List (Search Id σ)) (s : σ) :
    (g :: gs).foldr conj succeed s = (g s : List σ).flatMap (gs.foldr conj succeed : Search Id σ) :=
  each_eq_flatMap _ (g s)

/-- Level by level, many states come to the results of the chain from each of them. -/
theorem levels_eq_flatMap (gs : List (Search Id σ)) (states : List σ) :
    levels gs states = states.flatMap (gs.foldr conj succeed : Search Id σ) := by
  induction gs generalizing states with
  | nil => exact (List.flatMap_singleton' states).symm
  | cons g gs ih =>
    rw [levels_cons_eq, ih, List.flatMap_assoc]
    exact congrArg (states.flatMap ·) (funext fun s => (foldr_conj_cons_eq g gs s).symm)

theorem conjAll_eq_foldr (gs : List (Search Id σ)) : conjAll gs = gs.foldr conj succeed := by
  funext s
  rw [conjAll, levels_eq_flatMap, List.flatMap_singleton]

/-! ### Searches that record -/

/-- The computation gives the value and records these, in this order, after whatever was recorded before. -/
def Records (p : StateT (List ε) Option α) (a : α) (new : List ε) : Prop :=
  ∀ past, p past = some (a, new.reverse ++ past)

theorem records_pure (a : α) : Records (pure a : StateT (List ε) Option α) a [] :=
  fun _ => rfl

theorem Records.bind {p : StateT (List ε) Option α} {f : α → StateT (List ε) Option β} {a : α} {b : β}
    {new new' : List ε} (hp : Records p a new) (hf : Records (f a) b new') : Records (p >>= f) b (new ++ new') := by
  intro past
  have hbind : (p >>= f) past = (p past).bind fun r => f r.1 r.2 := rfl
  rw [hbind, hp past, Option.bind_some, hf, List.reverse_append, List.append_assoc]

/-- A goal that is a plain function of the state, and what it records when it is applied to a state. -/
structure Recorder (σ ε : Type) where
  results : σ → List σ
  records : σ → List ε

/-- The search that gives the results and records nothing. -/
def Recorder.plain (g : Recorder σ ε) : Search Id σ :=
  g.results

/-- The search that gives the results and records the records. -/
def Recorder.search (g : Recorder σ ε) : Search (StateT (List ε) Option) σ :=
  fun s past => some (g.results s, (g.records s).reverse ++ past)

theorem Recorder.records_search (g : Recorder σ ε) (s : σ) : Records (g.search s) (g.results s) (g.records s) :=
  fun _ => rfl

/-- What is recorded where all states pass one goal before any of them meets the next. -/
def levelRecords : List (Recorder σ ε) → List σ → List ε
  | [], _ => []
  | g :: gs, states => states.flatMap g.records ++ levelRecords gs (states.flatMap g.results)

/-- What is recorded where each state is taken through all goals before the next one. -/
def chainRecords : List (Recorder σ ε) → σ → List ε
  | [], _ => []
  | g :: gs, s => g.records s ++ (g.results s).flatMap (chainRecords gs)

theorem records_disjAll (gs : List (Recorder σ ε)) (s : σ) :
    Records (disjAll (gs.map Recorder.search) s) (disjAll (gs.map Recorder.plain) s)
      (gs.flatMap fun g => g.records s) := by
  induction gs with
  | nil => exact records_pure []
  | cons g gs ih =>
    rw [List.map_cons, List.map_cons, disjAll_cons, disjAll_cons, List.flatMap_cons]
    have hrest := ih.bind (f := fun right => pure (g.results s ++ right)) (records_pure _)
    rw [List.append_nil] at hrest
    exact (g.records_search s).bind hrest

theorem records_each {g : Search (StateT (List ε) Option) σ} {results : σ → List σ} {records : σ → List ε}
    (hg : ∀ s, Records (g s) (results s) (records s)) (states : List σ) :
    Records (each g states) (states.flatMap results) (states.flatMap records) := by
  induction states with
  | nil =>
    rw [each_nil]
    exact records_pure []
  | cons s states ih =>
    rw [each_cons, List.flatMap_cons, List.flatMap_cons]
    have hrest := ih.bind (f := fun others => pure (results s ++ others)) (records_pure _)
    rw [List.append_nil] at hrest
    exact (hg s).bind hrest

theorem records_levels (gs : List (Recorder σ ε)) (states : List σ) :
    Records (levels (gs.map Recorder.search) states) (levels (gs.map Recorder.plain) states)
      (levelRecords gs states) := by
  induction gs generalizing states with
  | nil => exact records_pure states
  | cons g gs ih =>
    rw [List.map_cons, List.map_cons, levels_cons, levels_cons_eq, levelRecords]
    exact (records_each g.records_search states).bind (ih _)

theorem records_conjAll (gs : List (Recorder σ ε)) (s : σ) :
    Records (conjAll (gs.map Recorder.search) s) (conjAll (gs.map Recorder.plain) s) (levelRecords gs [s]) :=
  records_levels gs [s]

theorem records_chain (gs : List (Recorder σ ε)) (s : σ) :
    Records ((gs.map Recorder.search).foldr conj succeed s) (conjAll (gs.map Recorder.plain) s)
      (chainRecords gs s) := by
  rw [conjAll_eq_foldr]
  induction gs generalizing s with
  | nil => exact records_pure [s]
  | cons g gs ih =>
    rw [List.map_cons, List.map_cons, foldr_conj_cons_eq, chainRecords, List.foldr_cons, conj]
    exact (g.records_search s).bind (records_each ih (g.results s))

/-- Both orders record the same. -/
theorem flatMap_chainRecords_perm (gs : List (Recorder σ ε)) (states : List σ) :
    (states.flatMap (chainRecords gs)).Perm (levelRecords gs states) := by
  induction gs generalizing states with
  | nil => simp [chainRecords, levelRecords]
  | cons g gs ih =>
    -- the records of the first goal are brought together in front of all others
    calc states.flatMap (chainRecords (g :: gs))
      _ = states.flatMap fun s => g.records s ++ (g.results s).flatMap (chainRecords gs) := rfl
      _ |>.Perm (states.flatMap g.records ++ states.flatMap fun s => (g.results s).flatMap (chainRecords gs)) :=
        (List.flatMap_append_perm states _ _).symm
      _ = states.flatMap g.records ++ (states.flatMap g.results).flatMap (chainRecords gs) := by
        rw [List.flatMap_assoc]
      _ |>.Perm (levelRecords (g :: gs) states) := (ih _).append_left _

theorem chainRecords_perm (gs : List (Recorder σ ε)) (s : σ) : (chainRecords gs s).Perm (levelRecords gs [s]) := by
  have hperm := flatMap_chainRecords_perm gs [s]
  rwa [List.flatMap_singleton] at hperm

/-- Three goals that each give a number and the next one, and record the number, do not record in one order. -/
example : levelRecords (List.replicate 3 ⟨fun n => [n, n + 1], fun n => [n]⟩) [0] = [0, 0, 1, 0, 1, 1, 2] ∧
    chainRecords (List.replicate 3 ⟨fun n => [n, n + 1], fun n => [n]⟩) 0 = [0, 0, 0, 1, 1, 1, 2] :=
  ⟨rfl, rfl⟩

/-! ### The states to which a goal is applied -/

/-- A goal that records nothing. -/
def Recorder.silent (g : Search Id σ) : Recorder σ ε :=
  ⟨g, fun _ => []⟩

/-- A goal that records every state to which it is applied. -/
def Recorder.noting (g : Search Id σ) : Recorder σ σ :=
  ⟨g, fun s => [s]⟩

/-- Goals of which one records the states to which it is applied, while those before and after it record nothing. -/
def watching (before : List (Search Id σ)) (g : Search Id σ) (after : List (Search Id σ)) : List (Recorder σ σ) :=
  before.map Recorder.silent ++ .noting g :: after.map Recorder.silent

theorem levelRecords_silent (gs : List (Search Id σ)) (states : List σ) :
    levelRecords (gs.map Recorder.silent) states = ([] : List ε) := by
  induction gs generalizing states with
  | nil => rfl
  | cons g gs ih => simp [levelRecords, Recorder.silent, ih]

theorem chainRecords_silent (gs : List (Search Id σ)) (s : σ) :
    chainRecords (gs.map Recorder.silent) s = ([] : List ε) := by
  have hperm := chainRecords_perm (gs.map Recorder.silent : List (Recorder σ ε)) s
  rw [levelRecords_silent] at hperm
  exact hperm.eq_nil

section

variable (before : List (Search Id σ)) (g : Search Id σ) (after : List (Search Id σ))

theorem map_plain_watching : (watching before g after).map Recorder.plain = before ++ g :: after := by
  have hsilent : ∀ gs : List (Search Id σ),
      (gs.map Recorder.silent : List (Recorder σ σ)).map Recorder.plain = gs := by
    intro gs
    rw [List.map_map]
    exact List.map_id gs
  rw [watching, List.map_append, List.map_cons, hsilent, hsilent]
  rfl

theorem levelRecords_watching (states : List σ) :
    levelRecords (watching before g after) states = levels before states := by
  induction before generalizing states with
  | nil =>
    show states.flatMap (fun s => [s]) ++ levelRecords (after.map Recorder.silent) _ = states
    rw [levelRecords_silent, List.append_nil, List.flatMap_singleton']
  | cons f before ih =>
    show states.flatMap (fun _ => []) ++ levelRecords (watching before g after) (states.flatMap f) = _
    rw [ih, levels_cons_eq, List.flatMap_eq_nil_iff.2 fun _ _ => rfl]
    rfl

theorem chainRecords_watching (s : σ) : chainRecords (watching before g after) s = conjAll before s := by
  rw [conjAll_eq_foldr]
  induction before generalizing s with
  | nil =>
    show [s] ++ (g s : List σ).flatMap (chainRecords (after.map Recorder.silent)) = [s]
    rw [List.flatMap_eq_nil_iff.2 fun s _ => chainRecords_silent after s]
    rfl
  | cons f before ih =>
    show (f s : List σ).flatMap (chainRecords (watching before g after)) = _
    rw [funext ih, foldr_conj_cons_eq]

end

/-! ### Main statement -/

/-- A disjunction of many goals is the chain of disjunctions of two that ends in failure, and a conjunction of many
goals the chain of conjunctions of two that ends in success, for goals that are plain functions of the state: they have
the same results in the same order.  Whatever the goals record when they are applied, the two disjunctions do the
same, and the two conjunctions record the same in some order.  Each goal of a conjunction is applied, either way, to
the results of the conjunction of the goals before it, in their order. -/
theorem combinators_eq_chains (gs : List (Recorder σ ε)) (s : σ) :
    disjAll (gs.map Recorder.plain) s = (gs.map Recorder.plain).foldr disj fail s ∧
    conjAll (gs.map Recorder.plain) s = (gs.map Recorder.plain).foldr conj succeed s ∧
    (∀ (before : List (Search Id σ)) (g : Search Id σ) (after : List (Search Id σ)),
      Records (conjAll ((watching before g after).map Recorder.search) s) (conjAll (before ++ g :: after) s)
        (conjAll before s) ∧
      Records (((watching before g after).map Recorder.search).foldr conj succeed s)
        (conjAll (before ++ g :: after) s) (conjAll before s)) ∧
    disjAll (gs.map Recorder.search) = (gs.map Recorder.search).foldr disj fail ∧
    Records (disjAll (gs.map Recorder.search) s) (disjAll (gs.map Recorder.plain) s)
      (gs.flatMap fun g => g.records s) ∧
    ∃ new new', Records (conjAll (gs.map Recorder.search) s) (conjAll (gs.map Recorder.plain) s) new ∧
      Records ((gs.map Recorder.search).foldr conj succeed s) (conjAll (gs.map Recorder.plain) s) new' ∧
      new.Perm new' := by
  refine ⟨?_, ?_, fun before g after => ⟨?_, ?_⟩, disjAll_eq_foldr _, records_disjAll gs s, ?_⟩
  · rw [disjAll_eq_foldr]
  · rw [conjAll_eq_foldr]
  · have h := records_conjAll (watching before g after) s
    rwa [map_plain_watching, levelRecords_watching] at h
  · have h := records_chain (watching before g after) s
    rwa [map_plain_watching, chainRecords_watching] at h
  · exact ⟨_, _, records_conjAll gs s, records_chain gs s, (chainRecords_perm gs s).symm⟩

end Search

end RelLogic
