import RelLogic.Proofs.Resolution

/-!
# Where resolving comes to an end

Resolving is given a budget of variables through which pairs may be entered, and the number of the bindings is
always enough (`Subst.resolve?_eq_some_iff`): resolving comes to an end wherever there is a tree that the term resolves
to, be the substitution cyclic elsewhere or not (`Subst.Resolves.exists_resolve?`).  On a way down the trees that are
left to make become smaller, so no variable is entered twice.
-/

namespace RelLogic

namespace Subst

variable {s : Subst} {t r : Term} {x y : Var} {path : List Var}

/-! ### Smaller and smaller trees -/

theorem Resolves.exists_walk? (h : s.Resolves t r) : ∃ u, s.walk? t = some u := by
  cases h with
  | leaf hu _ => exact ⟨_, hu⟩
  | pair ht _ _ => exact ⟨_, ht⟩

theorem Resolves.parts {i : Nat} {a d : Term} (h : s.Resolves (.pair i a d) r) :
    ∃ a' d', s.Resolves a a' ∧ s.Resolves d d' ∧ r = .pair 0 a' d' := by
  cases h with
  | leaf hu hleaf =>
    obtain rfl := Option.some.inj hu
    simp [Term.isPair, Term.asPair?] at hleaf
  | pair ht ha hd =>
    obtain ⟨rfl, rfl, rfl⟩ : _ ∧ _ ∧ _ := by simpa using Option.some.inj ht
    exact ⟨_, _, ha, hd, rfl⟩

/-- A variable of a term resolves to a part of its tree. -/
theorem Resolves.exists_of_mem_vars (h : s.Resolves t r) (hy : y ∈ t.vars) :
    ∃ q, s.Resolves (.var y) q ∧ q.nodes ≤ r.nodes := by
  induction t generalizing r with
  | var x =>
    obtain rfl : y = x := by simpa [Term.vars] using hy
    exact ⟨r, h, Nat.le_refl _⟩
  | pair i a d iha ihd =>
    obtain ⟨a', d', ha, hd, rfl⟩ := h.parts
    rw [Term.nodes]
    rcases List.mem_append.1 hy with hy | hy
    · obtain ⟨q, hq, hle⟩ := iha ha hy
      exact ⟨q, hq, by omega⟩
    · obtain ⟨q, hq, hle⟩ := ihd hd hy
      exact ⟨q, hq, by omega⟩
  | _ => simp [Term.vars] at hy

theorem Resolves.exists_of_mem_vars_pair {i : Nat} {a d : Term} (h : s.Resolves (.pair i a d) r)
    (hy : y ∈ (Term.pair i a d).vars) : ∃ q, s.Resolves (.var y) q ∧ q.nodes < r.nodes := by
  obtain ⟨a', d', ha, hd, rfl⟩ := h.parts
  rw [Term.nodes]
  rcases List.mem_append.1 hy with hy | hy
  · obtain ⟨q, hq, hle⟩ := ha.exists_of_mem_vars hy
    exact ⟨q, hq, by omega⟩
  · obtain ⟨q, hq, hle⟩ := hd.exists_of_mem_vars hy
    exact ⟨q, hq, by omega⟩

/-- Different bound variables, each of which resolves to a larger tree than every variable of the term. -/
structure Shrinking (s : Subst) (path : List Var) (t : Term) : Prop where
  nodup : path.Nodup
  bound : ∀ y ∈ path, y ∈ s.bound
  resolves : ∃ r, s.Resolves t r
  smaller : ∀ y ∈ path, ∀ z ∈ t.vars, ∃ q q', s.Resolves (.var y) q ∧ s.Resolves (.var z) q' ∧ q'.nodes < q.nodes

/-- A pair that is entered through a variable is entered through a binding that has not been used before. -/
theorem Shrinking.enter (h : s.Shrinking path (.var x)) {i : Nat} {a d : Term}
    (hx : s.walk? (.var x) = some (.pair i a d)) : ∃ y, s.Shrinking (y :: path) (.pair i a d) := by
  obtain ⟨r, hr⟩ := h.resolves
  obtain ⟨y, -, hy⟩ := exists_get?_of_walk? hx rfl
  have hwalk : s.walk? (.var y) = some (.pair i a d) := walk?_var_of_walk? hy rfl
  have hpair : s.Resolves (.pair i a d) r := hr.congr hx
  have hry : s.Resolves (.var y) r := hr.congr (hx.trans hwalk.symm)
  have habove : ∀ w ∈ path, ∃ q, s.Resolves (.var w) q ∧ r.nodes < q.nodes := by
    intro w hw
    obtain ⟨q, q', hq, hq', hlt⟩ := h.smaller w hw x (by simp [Term.vars])
    rw [hq'.unique hr] at hlt
    exact ⟨q, hq, hlt⟩
  have hnew : y ∉ path := by
    intro hmem
    obtain ⟨q, hq, hlt⟩ := habove y hmem
    rw [hq.unique hry] at hlt
    omega
  refine ⟨y, List.nodup_cons.2 ⟨hnew, h.nodup⟩, ?_, ⟨r, hpair⟩, ?_⟩
  · exact List.forall_mem_cons.2 ⟨mem_bound_of_get? hy, h.bound⟩
  · refine List.forall_mem_cons.2 ⟨fun z hz => ?_, fun w hw z hz => ?_⟩
    · obtain ⟨q', hq', hlt⟩ := hpair.exists_of_mem_vars_pair hz
      exact ⟨r, q', hry, hq', hlt⟩
    · obtain ⟨q, hq, hlt⟩ := habove w hw
      obtain ⟨q', hq', hlt'⟩ := hpair.exists_of_mem_vars_pair hz
      exact ⟨q, q', hq, hq', by omega⟩

theorem Shrinking.parts {i : Nat} {a d : Term} (h : s.Shrinking path (.pair i a d)) :
    s.Shrinking path a ∧ s.Shrinking path d := by
  obtain ⟨r, hr⟩ := h.resolves
  obtain ⟨a', d', ha, hd, -⟩ := hr.parts
  constructor
  · exact ⟨h.nodup, h.bound, ⟨a', ha⟩, fun y hy z hz => h.smaller y hy z (List.mem_append_left _ hz)⟩
  · exact ⟨h.nodup, h.bound, ⟨d', hd⟩, fun y hy z hz => h.smaller y hy z (List.mem_append_right _ hz)⟩

theorem descent_shrinking (s : Subst) : s.Descent s.Shrinking where
  nodup h := h.nodup
  bound h := h.bound
  walks h := h.resolves.elim fun _ hr => hr.exists_walk?
  parts h := h.parts
  enter h hx := h.enter hx

/-- A term that resolves to a tree can be resolved. -/
theorem Resolves.exists_resolve? (h : s.Resolves t r) (σ : Supply) : ∃ r' σ', s.resolve? t σ = some (r', σ') := by
  have hstart : s.Shrinking [] t := ⟨List.nodup_nil, nofun, ⟨r, h⟩, nofun⟩
  exact s.descent_shrinking.exists_resolveAfter hstart (Nat.le_refl _) [] σ

/-! ### The budget -/

/-- A larger budget never changes a result. -/
theorem resolveAfter_mono {n m : Nat} (hnm : n ≤ m) {met : List Term} {σ : Supply} {p : Term × Supply}
    (h : s.resolveAfter n met t σ = some p) : s.resolveAfter m met t σ = some p := by
  induction n, met, t using resolveAfter_ind (s := s) generalizing m σ p with
  | leaf n met t u ht hu hleaf =>
    rw [resolveAfter_of_leaf ht hu hleaf] at h ⊢
    exact h
  | pair n met i a d iha ihd =>
    rw [resolveAfter_pair, Option.bind_eq_some_iff] at h ⊢
    obtain ⟨q, ha, hd⟩ := h
    exact ⟨q, iha hnm ha, ihd q.1 hnm hd⟩
  | enter n met x i a d hx ih =>
    obtain ⟨k, rfl⟩ : ∃ k, m = k + 1 := ⟨m - 1, by omega⟩
    rw [resolveAfter_of_pair hx] at h ⊢
    exact ih (by omega) h
  | stuck n met x hx =>
    rw [resolveAfter_of_stuck hx] at h
    contradiction

/-- A term is resolved if it is resolved with any budget at all. -/
theorem resolve?_eq_some_iff {σ : Supply} {p : Term × Supply} :
    s.resolve? t σ = some p ↔ ∃ budget, s.resolveAfter budget [] t σ = some p := by
  constructor
  · intro h
    exact ⟨_, h⟩
  · rintro ⟨n, hn⟩
    obtain ⟨r, hr, -⟩ := resolves_of_resolveAfter hn
    obtain ⟨r', σ', h⟩ := hr.exists_resolve? σ
    have hmax := resolveAfter_mono (Nat.le_max_left n s.bindings.length) hn
    rw [resolveAfter_mono (Nat.le_max_right n s.bindings.length) h] at hmax
    rw [h, hmax]

end Subst

end RelLogic
