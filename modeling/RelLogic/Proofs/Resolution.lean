import Mathlib.Tactic.Choose
import RelLogic.Proofs.Acyclic
import RelLogic.Proofs.Bare
import RelLogic.Subst.Resolve

/-!
# Resolved terms

`Subst.Resolves s t r` says that `r` is the bare tree that remains of `t` when every bound variable is replaced, at any
depth, by what it stands for.  It is plain recursion over the walked term.  Resolving along a spine gives such a tree
(`Subst.resolves_of_resolve?`).

In an acyclic substitution resolving always comes to an end (`Subst.exists_resolve?`): the bound variables that are
entered on a way down refer to all that is below them, so none of them is entered again, and there are no more of them
than bindings.  So an acyclic substitution has a solution for any values of the variables without bindings
(`Subst.Acyclic.exists_solution`): a bound variable gets the value of its resolved term.
-/

namespace RelLogic

theorem Term.vars_bare (t : Term) : t.bare.vars = t.vars := by
  induction t with
  | pair i a d iha ihd => rw [bare, vars, vars, iha, ihd]
  | _ => rfl

universe u

/-- The value of a term depends on the values of its variables only. -/
theorem Model.eval_congr {D : Type u} {M : Model D} {ρ ρ' : Var → D} {t : Term}
    (h : ∀ y ∈ t.vars, ρ y = ρ' y) : M.eval ρ t = M.eval ρ' t := by
  induction t with
  | var x => exact h x (by simp [Term.vars])
  | pair i a d iha ihd =>
    have ha := iha fun y hy => h y (List.mem_append_left _ hy)
    have hd := ihd fun y hy => h y (List.mem_append_right _ hy)
    rw [Model.eval, Model.eval, ha, hd]
  | _ => rfl

namespace Subst

/-- What is left of a term when all its bound variables are replaced. -/
inductive Resolves (s : Subst) : Term → Term → Prop
  | leaf {t u : Term} (hu : s.walk? t = some u) (hleaf : u.isPair = false) : Resolves s t u.bare
  | pair {t a d a' d' : Term} {i : Nat} (ht : s.walk? t = some (.pair i a d)) (ha : Resolves s a a')
      (hd : Resolves s d d') : Resolves s t (.pair 0 a' d')

variable {s : Subst}

theorem Resolves.unique {t r r' : Term} (h : s.Resolves t r) (h' : s.Resolves t r') : r = r' := by
  induction h generalizing r' with
  | leaf hu hleaf =>
    cases h' with
    | leaf hu' _ => rw [Option.some.inj (hu.symm.trans hu')]
    | pair ht _ _ =>
      obtain rfl := Option.some.inj (hu.symm.trans ht)
      simp [Term.isPair, Term.asPair?] at hleaf
  | pair ht _ _ iha ihd =>
    cases h' with
    | leaf hu' hleaf =>
      obtain rfl := Option.some.inj (ht.symm.trans hu')
      simp [Term.isPair, Term.asPair?] at hleaf
    | pair ht' ha' hd' =>
      obtain ⟨rfl, rfl, rfl⟩ : _ ∧ _ ∧ _ := by simpa using ht.symm.trans ht'
      rw [iha ha', ihd hd']

theorem Resolves.congr {t t' r : Term} (h : s.Resolves t r) (ht : s.walk? t = s.walk? t') : s.Resolves t' r := by
  cases h with
  | leaf hu hleaf => exact .leaf (ht ▸ hu) hleaf
  | pair hp ha hd => exact .pair (ht ▸ hp) ha hd

/-- No bound variable is left. -/
theorem Resolves.unbound {t r : Term} (h : s.Resolves t r) {y : Var} (hy : y ∈ r.vars) : s.get? y = none := by
  induction h with
  | @leaf t u hu hleaf =>
    cases u with
    | var x =>
      obtain rfl : y = x := by simpa [Term.bare, Term.vars] using hy
      exact get?_of_walk? hu
    | pair i a d => simp [Term.isPair, Term.asPair?] at hleaf
    | _ => simp [Term.bare, Term.vars] at hy
  | pair _ _ _ iha ihd =>
    rcases List.mem_append.1 hy with h | h
    · exact iha h
    · exact ihd h

/-- A term is left as it is if none of its variables is bound, and only then. -/
theorem resolves_bare_iff {t : Term} : s.Resolves t t.bare ↔ ∀ y ∈ t.vars, s.get? y = none := by
  constructor
  · intro h y hy
    rw [← Term.vars_bare] at hy
    exact h.unbound hy
  · intro h
    induction t with
    | var x => exact .leaf (walk?_of_get?_eq_none (h x (by simp [Term.vars]))) rfl
    | pair i a d iha ihd =>
      have ha := iha fun y hy => h y (List.mem_append_left _ hy)
      have hd := ihd fun y hy => h y (List.mem_append_right _ hy)
      exact .pair rfl ha hd
    | _ => exact .leaf rfl rfl

theorem Resolves.bare {t r : Term} (h : s.Resolves t r) : r.bare = r := by
  induction h with
  | @leaf t u hu hleaf => exact u.bare_bare
  | pair _ _ _ iha ihd => rw [Term.bare, iha, ihd]

/-! ### Resolving along a spine -/

/-- The bare tree of given items, the last one first, in front of a rest. -/
def prepend (met : List Term) (r : Term) : Term :=
  met.foldl (fun rest x => .pair 0 x.bare rest) r

theorem bare_consAll (met : List Term) (t : Term) (σ : Supply) :
    (Term.consAll met t σ).1.bare = prepend met t.bare := by
  induction met generalizing t σ with
  | nil => rfl
  | cons x met ih => exact ih _ _

theorem bind_apply {α β : Type} (p : Fresh? α) (f : α → Fresh? β) (σ : Supply) :
    (p >>= f) σ = (p σ).bind fun r => f r.1 r.2 := rfl

private theorem isPair_eq_false {t : Term} (h : ∀ i a d, t = .pair i a d → False) : t.isPair = false := by
  cases t with
  | pair i a d => exact (h i a d rfl).elim
  | _ => rfl

private theorem isVar_eq_false {t : Term} (h : ∀ x, t = .var x → False) : t.isVar = false := by
  cases t with
  | var x => exact (h x rfl).elim
  | _ => rfl

theorem resolveAfter_of_leaf {t u : Term} (ht : t.isPair = false) (hu : s.walk? t = some u)
    (hleaf : u.isPair = false) (budget : Nat) (met : List Term) :
    s.resolveAfter budget met t = Fresh.total (Term.consAll met u) := by
  cases t with
  | pair i a d => simp [Term.isPair, Term.asPair?] at ht
  | var x =>
    rw [resolveAfter, hu]
    cases u with
    | pair i a d => simp [Term.isPair, Term.asPair?] at hleaf
    | _ => rfl
  | _ =>
    obtain rfl := Option.some.inj hu
    rw [resolveAfter] <;> simp

theorem resolveAfter_of_pair {x : Var} {i : Nat} {a d : Term} (hx : s.walk? (.var x) = some (.pair i a d)) (n : Nat)
    (met : List Term) : s.resolveAfter (n + 1) met (.var x) = s.resolveAfter n met (.pair i a d) := by
  conv => lhs; rw [resolveAfter, hx]
  rw [resolveAfter]

theorem resolveAfter_pair (s : Subst) (budget : Nat) (met : List Term) (i : Nat) (a d : Term) (σ : Supply) :
    s.resolveAfter budget met (.pair i a d) σ =
      (s.resolveAfter budget [] a σ).bind fun p => s.resolveAfter budget (p.1 :: met) d p.2 := by
  rw [resolveAfter, bind_apply]

theorem resolveAfter_of_stuck {budget : Nat} {x : Var}
    (hx : ∀ u, s.walk? (.var x) = some u → u.isPair = true ∧ budget = 0) (met : List Term) (σ : Supply) :
    s.resolveAfter budget met (.var x) σ = none := by
  rw [resolveAfter]
  cases hu : s.walk? (.var x) with
  | none => rfl
  | some u =>
    obtain ⟨hpair, rfl⟩ := hx u hu
    cases u with
    | pair i a d => rfl
    | _ => simp [Term.isPair, Term.asPair?] at hpair

/-- Induction along the way that resolving takes: it is done at a leaf, resolves both parts of a pair, enters a pair
through a variable, or is stuck at a variable, because the walk has no end or the budget is used up. -/
theorem resolveAfter_ind {motive : Nat → List Term → Term → Prop}
    (leaf : ∀ budget met t u, t.isPair = false → s.walk? t = some u → u.isPair = false → motive budget met t)
    (pair : ∀ budget met i a d, motive budget [] a → (∀ a', motive budget (a' :: met) d) →
      motive budget met (.pair i a d))
    (enter : ∀ n met x i a d, s.walk? (.var x) = some (.pair i a d) → motive n met (.pair i a d) →
      motive (n + 1) met (.var x))
    (stuck : ∀ budget met x, (∀ u, s.walk? (.var x) = some u → u.isPair = true ∧ budget = 0) →
      motive budget met (.var x))
    (budget : Nat) (met : List Term) (t : Term) : motive budget met t := by
  induction budget, met, t using resolveAfter.induct s with
  | case1 budget met i a d iha ihd => exact pair budget met i a d iha ihd
  | case2 budget met x hx => exact stuck budget met x fun u hu => by simp [hx] at hu
  | case3 met x i a d hx =>
    refine stuck 0 met x fun u hu => ⟨?_, rfl⟩
    rw [Option.some.inj (hu.symm.trans hx)]
    rfl
  | case4 met x i a d hx n iha ihd => exact enter n met x i a d hx (pair n met i a d iha ihd)
  | case5 budget met x u hpair hx => exact leaf budget met (.var x) u rfl hx (isPair_eq_false hpair)
  | case6 budget met u hpair hvar =>
    have hleaf := isPair_eq_false hpair
    exact leaf budget met u u hleaf (s.walk?_of_not_var (isVar_eq_false hvar)) hleaf

/-- What resolving gives in front of a spine is the resolved rest of it. -/
theorem resolves_of_resolveAfter {budget : Nat} {met : List Term} {t r : Term} {σ σ' : Supply}
    (h : s.resolveAfter budget met t σ = some (r, σ')) : ∃ r₀, s.Resolves t r₀ ∧ r.bare = prepend met r₀ := by
  induction budget, met, t using resolveAfter_ind (s := s) generalizing r σ σ' with
  | leaf budget met t u ht hu hleaf =>
    rw [resolveAfter_of_leaf ht hu hleaf] at h
    obtain rfl : (Term.consAll met u σ).1 = r := congrArg Prod.fst (Option.some.inj h)
    exact ⟨_, .leaf hu hleaf, bare_consAll met u σ⟩
  | pair budget met i a d iha ihd =>
    rw [resolveAfter_pair, Option.bind_eq_some_iff] at h
    obtain ⟨⟨a', σ₁⟩, ha, hd⟩ := h
    obtain ⟨a₀, ha₀, ha'⟩ := iha ha
    obtain ⟨d₀, hd₀, hr⟩ := ihd a' hd
    obtain rfl : a'.bare = a₀ := ha'
    exact ⟨_, .pair rfl ha₀ hd₀, hr⟩
  | enter n met x i a d hx ih =>
    rw [resolveAfter_of_pair hx] at h
    obtain ⟨r₀, hr₀, hr⟩ := ih h
    exact ⟨r₀, hr₀.congr hx.symm, hr⟩
  | stuck budget met x hx =>
    rw [resolveAfter_of_stuck hx] at h
    contradiction

theorem resolves_of_resolve? {t r : Term} {σ σ' : Supply} (h : s.resolve? t σ = some (r, σ')) :
    s.Resolves t r.bare := by
  obtain ⟨r₀, hr₀, hr⟩ := resolves_of_resolveAfter h
  obtain rfl : r.bare = r₀ := hr
  exact hr₀

/-! ### How deep resolving goes -/

/-- What is known, on a way down through a term, of the bound variables through which pairs were entered and of the
term that is reached: no variable is entered twice. -/
structure Descent (s : Subst) (Q : List Var → Term → Prop) : Prop where
  nodup : ∀ {path t}, Q path t → path.Nodup
  bound : ∀ {path t}, Q path t → ∀ y ∈ path, y ∈ s.bound
  walks : ∀ {path x}, Q path (.var x) → ∃ u, s.walk? (.var x) = some u
  parts : ∀ {path i a d}, Q path (.pair i a d) → Q path a ∧ Q path d
  enter : ∀ {path x i a d}, Q path (.var x) → s.walk? (.var x) = some (.pair i a d) →
    ∃ y, Q (y :: path) (.pair i a d)

theorem Descent.length_le {Q : List Var → Term → Prop} (hQ : s.Descent Q) {path : List Var} {t : Term}
    (h : Q path t) : path.length ≤ s.bindings.length := by
  rw [← length_bound]
  exact (hQ.nodup h).length_le_of_subset (hQ.bound h)

/-- Resolving comes to an end if its budget is as large as the number of bindings that were not entered. -/
theorem Descent.exists_resolveAfter {Q : List Var → Term → Prop} (hQ : s.Descent Q) {budget : Nat} {path : List Var}
    {t : Term} (h : Q path t) (hsize : s.bindings.length ≤ budget + path.length) (met : List Term) (σ : Supply) :
    ∃ r σ', s.resolveAfter budget met t σ = some (r, σ') := by
  induction budget, met, t using resolveAfter_ind (s := s) generalizing path σ with
  | leaf budget met t u ht hu hleaf => exact ⟨_, _, by rw [resolveAfter_of_leaf ht hu hleaf]; rfl⟩
  | pair budget met i a d iha ihd =>
    obtain ⟨hcar, hcdr⟩ := hQ.parts h
    obtain ⟨a', σ₁, ha⟩ := iha hcar hsize σ
    obtain ⟨r, σ', hd⟩ := ihd a' hcdr hsize σ₁
    exact ⟨r, σ', by rw [resolveAfter_pair, ha, Option.bind_some, hd]⟩
  | enter n met x i a d hx ih =>
    obtain ⟨y, hy⟩ := hQ.enter h hx
    have hsize' : s.bindings.length ≤ n + (y :: path).length := by
      rw [List.length_cons]
      omega
    rw [resolveAfter_of_pair hx]
    exact ih hy hsize' σ
  | stuck budget met x hx =>
    -- the pair would be entered through one binding more than there are
    obtain ⟨u, hu⟩ := hQ.walks h
    obtain ⟨hpair, rfl⟩ := hx u hu
    obtain ⟨i, a, d, rfl⟩ : ∃ i a d, u = .pair i a d := by
      cases u <;> simp_all [Term.isPair, Term.asPair?]
    obtain ⟨y, hy⟩ := hQ.enter h hu
    have hle := hQ.length_le hy
    rw [List.length_cons] at hle
    omega

/-! ### Resolving in acyclic substitutions -/

open Relation (TransGen ReflTransGen)

/-- Different bound variables, all of which refer to every variable of the term. -/
structure Entered (s : Subst) (path : List Var) (t : Term) : Prop where
  nodup : path.Nodup
  bound : ∀ y ∈ path, y ∈ s.bound
  refers : ∀ y ∈ path, ∀ z ∈ t.vars, TransGen s.Refers y z

theorem Entered.mono {path : List Var} {t t' : Term} (h : s.Entered path t) (ht : ∀ z ∈ t'.vars, z ∈ t.vars) :
    s.Entered path t' :=
  ⟨h.nodup, h.bound, fun y hy z hz => h.refers y hy z (ht z hz)⟩

/-- A pair that is entered through a variable is entered through a binding that has not been used before. -/
theorem Entered.enter (hs : s.Acyclic) {path : List Var} {x : Var} {i : Nat} {a d : Term}
    (h : s.Entered path (.var x)) (hx : s.walk? (.var x) = some (.pair i a d)) :
    ∃ y, s.Entered (y :: path) (.pair i a d) := by
  obtain ⟨y, hxy, hy⟩ := exists_get?_of_walk? hx rfl
  have hxy' : ReflTransGen s.Refers x y :=
    ReflTransGen.mono (fun b c hbc => ⟨_, hbc, by simp [Term.vars]⟩) _ _ hxy
  have hlead : ∀ z ∈ path, TransGen s.Refers z y := fun z hz =>
    (h.refers z hz x (by simp [Term.vars])).trans_left hxy'
  have hnew : y ∉ path := fun hmem => hs.noLoop y (hlead y hmem)
  have hrefers : ∀ z ∈ (Term.pair i a d).vars, s.Refers y z := fun z hz => ⟨_, hy, hz⟩
  refine ⟨y, List.nodup_cons.2 ⟨hnew, h.nodup⟩, ?_, ?_⟩
  · exact List.forall_mem_cons.2 ⟨mem_bound_of_get? hy, h.bound⟩
  · refine List.forall_mem_cons.2 ⟨fun z hz => .single (hrefers z hz), fun w hw z hz => ?_⟩
    exact (hlead w hw).tail (hrefers z hz)

theorem Acyclic.descent (hs : s.Acyclic) : s.Descent s.Entered where
  nodup h := h.nodup
  bound h := h.bound
  walks _ := exists_walk? hs.ringFree _
  parts h := ⟨h.mono fun _ hz => List.mem_append_left _ hz, h.mono fun _ hz => List.mem_append_right _ hz⟩
  enter h hx := h.enter hs hx

/-- In an acyclic substitution every term can be resolved. -/
theorem exists_resolve? (hs : s.Acyclic) (t : Term) (σ : Supply) : ∃ r σ', s.resolve? t σ = some (r, σ') := by
  have hstart : s.Entered [] t := ⟨List.nodup_nil, nofun, nofun⟩
  exact hs.descent.exists_resolveAfter hstart (Nat.le_refl _) [] σ

theorem Acyclic.exists_resolves (hs : s.Acyclic) (t : Term) : ∃ r, s.Resolves t r := by
  obtain ⟨r, σ', h⟩ := exists_resolve? hs t {}
  exact ⟨r.bare, resolves_of_resolve? h⟩

/-! ### Solutions -/

variable {D : Type u} {M : Model D}

theorem Resolves.eval_eq {ρ : Var → D} {t r : Term} (h : s.Resolves t r) (hρ : M.Satisfies ρ s) :
    M.eval ρ r = M.eval ρ t := by
  induction h with
  | leaf hu _ => rw [Model.eval_bare, Model.eval_walk? hρ hu]
  | pair ht _ _ iha ihd => rw [← Model.eval_walk? hρ ht, Model.eval, Model.eval, iha, ihd]

/-- An acyclic substitution has a solution for any values of the variables without bindings. -/
theorem Acyclic.exists_solution (hs : s.Acyclic) (M : Model D) (α : Var → D) :
    ∃ ρ, M.SatisfiesAll ρ s ∧ ∀ y, s.get? y = none → ρ y = α y := by
  choose resolved hresolved using hs.exists_resolves
  -- a variable has the value of its resolved term, in which only variables without bindings are left
  have hρ : ∀ t, M.eval (fun x => M.eval α (resolved (.var x))) t = M.eval α (resolved t) := by
    intro t
    induction t with
    | nil => rw [(hresolved .nil).unique (.leaf rfl rfl)]; rfl
    | atom i a => rw [(hresolved (.atom i a)).unique (.leaf rfl rfl)]; rfl
    | var x => rfl
    | pair i a d iha ihd =>
      rw [(hresolved (.pair i a d)).unique (.pair rfl (hresolved a) (hresolved d)), Model.eval, Model.eval, iha, ihd]
  refine ⟨fun x => M.eval α (resolved (.var x)), fun b hb => ?_, fun y hy => ?_⟩
  · have hget := get?_of_mem_bindings hs.nodup hb
    rw [hρ, (hresolved b.2).unique ((hresolved (.var b.1)).congr (walk?_of_get? hs.ringFree hget))]
  · show M.eval α (resolved (.var y)) = α y
    rw [(hresolved (.var y)).unique (.leaf (walk?_of_get?_eq_none hy) rfl)]
    rfl

end Subst

end RelLogic
