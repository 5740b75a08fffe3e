import RelLogic.Proofs.Resolution

/-!
# Resolved terms are normal forms

`resolveRec?` resolves a term by plain recursion: it walks the term and, at a pair, resolves both parts.  Resolving
along the spine gives the same tree in an acyclic substitution, wherever the spine goes through bound variables and
whatever it ends in (`resolve?_normalForm`).  No bound variable is left in the result, so resolving it again changes
nothing, and the terms that resolving does not change are those without bound variables.
-/

namespace RelLogic

namespace Subst

variable {s : Subst} {t r : Term}

/-! ### The recursion -/

/-- Resolves a term by recursion on the parts of pairs.  The number bounds the depth of the recursion. -/
def resolveRec? (s : Subst) : Nat → Term → Fresh? Term
  | 0, _ => failure
  | n + 1, t =>
    match s.walk? t with
    | none => failure
    | some (.pair _ a d) => do
      let a' ← s.resolveRec? n a
      let d' ← s.resolveRec? n d
      Fresh.total (Term.cons a' d')
    | some u => return u

theorem resolveRec?_of_leaf {u : Term} (hu : s.walk? t = some u) (hleaf : u.isPair = false) (n : Nat) (σ : Supply) :
    s.resolveRec? (n + 1) t σ = some (u, σ) := by
  rw [resolveRec?, hu]
  cases u with
  | pair i a d => simp [Term.isPair, Term.asPair?] at hleaf
  | _ => rfl

theorem resolveRec?_of_pair {a d : Term} {i : Nat} (ht : s.walk? t = some (.pair i a d)) (n : Nat) (σ : Supply) :
    s.resolveRec? (n + 1) t σ =
      (s.resolveRec? n a σ).bind fun p => (s.resolveRec? n d p.2).bind fun q => some (Term.cons p.1 q.1 q.2) := by
  rw [resolveRec?, ht]
  rfl

/-- More depth never changes a result. -/
theorem resolveRec?_mono {n m : Nat} (hnm : n ≤ m) {σ : Supply} {p : Term × Supply}
    (h : s.resolveRec? n t σ = some p) : s.resolveRec? m t σ = some p := by
  induction n generalizing m t σ p with
  | zero => cases h
  | succ n ih =>
    obtain ⟨k, rfl⟩ : ∃ k, m = k + 1 := ⟨m - 1, by omega⟩
    have hnk : n ≤ k := by omega
    cases ht : s.walk? t with
    | none =>
      rw [resolveRec?, ht] at h
      cases h
    | some u =>
      by_cases hleaf : u.isPair = false
      · rw [resolveRec?_of_leaf ht hleaf] at h ⊢
        exact h
      · obtain ⟨i, a, d, rfl⟩ : ∃ i a d, u = .pair i a d := by
          cases u <;> simp_all [Term.isPair, Term.asPair?]
        rw [resolveRec?_of_pair ht] at h ⊢
        obtain ⟨car, hcar, h⟩ := Option.bind_eq_some_iff.1 h
        obtain ⟨cdr, hcdr, h⟩ := Option.bind_eq_some_iff.1 h
        rw [ih hnk hcar, Option.bind_some, ih hnk hcdr, Option.bind_some]
        exact h

/-- The recursion makes the tree that remains of the term. -/
theorem Resolves.exists_resolveRec? (h : s.Resolves t r) :
    ∃ depth, ∀ σ, ∃ r' σ', s.resolveRec? depth t σ = some (r', σ') ∧ r'.bare = r := by
  induction h with
  | @leaf t u hu hleaf => exact ⟨1, fun σ => ⟨u, σ, resolveRec?_of_leaf hu hleaf 0 σ, rfl⟩⟩
  | pair ht _ _ iha ihd =>
    obtain ⟨n, hn⟩ := iha
    obtain ⟨m, hm⟩ := ihd
    refine ⟨max n m + 1, fun σ => ?_⟩
    obtain ⟨a', σ₁, hcar, rfl⟩ := hn σ
    obtain ⟨d', σ₂, hcdr, rfl⟩ := hm σ₁
    have hcar' := resolveRec?_mono (Nat.le_max_left n m) hcar
    have hcdr' := resolveRec?_mono (Nat.le_max_right n m) hcdr
    refine ⟨(Term.cons a' d' σ₂).1, (Term.cons a' d' σ₂).2, ?_, rfl⟩
    rw [resolveRec?_of_pair ht, hcar', Option.bind_some, hcdr', Option.bind_some]
    rfl

end Subst

/-! ### Main statement -/

/-- In an acyclic substitution every term can be resolved.  The result is the tree that plain recursion makes; it has
no bound variable; resolved again, it is the same tree; and it is the tree of the term itself if and only if the term
has no bound variable. -/
theorem resolve?_normalForm {s : Subst} (hs : s.Acyclic) (t : Term) (σ : Supply) :
    ∃ r σ', s.resolve? t σ = some (r, σ') ∧
      (∃ depth, ∀ τ, ∃ r' τ', s.resolveRec? depth t τ = some (r', τ') ∧ r.same r' = true) ∧
      (∀ y ∈ r.vars, s.get? y = none) ∧
      (∀ τ, ∃ r' τ', s.resolve? r τ = some (r', τ') ∧ r'.same r = true) ∧
      (r.same t = true ↔ ∀ y ∈ t.vars, s.get? y = none) := by
  obtain ⟨r, σ', hr⟩ := Subst.exists_resolve? hs t σ
  have htree : s.Resolves t r.bare := Subst.resolves_of_resolve? hr
  have hunbound : ∀ y ∈ r.vars, s.get? y = none := by
    intro y hy
    rw [← Term.vars_bare] at hy
    exact htree.unbound hy
  refine ⟨r, σ', hr, ?_, hunbound, ?_, ?_⟩
  · obtain ⟨depth, hdepth⟩ := htree.exists_resolveRec?
    refine ⟨depth, fun τ => ?_⟩
    obtain ⟨r', τ', hr', hbare⟩ := hdepth τ
    exact ⟨r', τ', hr', Term.same_iff.2 hbare.symm⟩
  · intro τ
    obtain ⟨r', τ', hr'⟩ := Subst.exists_resolve? hs r τ
    have hagain : s.Resolves r r.bare := Subst.resolves_bare_iff.2 hunbound
    exact ⟨r', τ', hr', Term.same_iff.2 ((Subst.resolves_of_resolve? hr').unique hagain)⟩
  · rw [Term.same_iff, ← Subst.resolves_bare_iff]
    constructor
    · intro hbare
      rw [← hbare]
      exact htree
    · exact htree.unique

/-- The substitution in which `x` is bound to `(true . y)` and `y` to `(false . z)`. -/
private def spines : Subst :=
  ⟨[(⟨1, "y"⟩, .pair 1 (.atom 3 (.bool false)) (.var ⟨2, "z"⟩)),
    (⟨0, "x"⟩, .pair 0 (.atom 2 (.bool true)) (.var ⟨1, "y"⟩))], 2⟩

/-- The spine of `x` goes through both bindings and ends in `z`. -/
theorem resolve?_normalForm_spine :
    spines.Acyclic ∧
      ∃ r σ', spines.resolve? (.var ⟨0, "x"⟩) {} = some (r, σ') ∧
        r.same (.pair 5 (.atom 2 (.bool true)) (.pair 4 (.atom 3 (.bool false)) (.var ⟨2, "z"⟩))) = true ∧
        ¬r.same (.var ⟨0, "x"⟩) = true := by
  have hs : spines.Acyclic := by
    have hx := Subst.acyclic_empty.extend_of_unbound (x := ⟨0, "x"⟩)
      (t := .pair 0 (.atom 2 (.bool true)) (.var ⟨1, "y"⟩)) rfl (by simp [Term.vars])
    exact hx.extend_of_unbound rfl (by simp [Term.vars, Subst.get?_extend])
  obtain ⟨r, σ', hr, -, -, -, hsame⟩ := resolve?_normalForm hs (.var ⟨0, "x"⟩) {}
  have htree := Subst.resolves_of_resolve? hr
  have hspine : spines.Resolves (.var ⟨0, "x"⟩) _ :=
    .pair rfl (.leaf rfl rfl) (.pair rfl (.leaf rfl rfl) (.leaf rfl rfl))
  refine ⟨hs, r, σ', hr, Term.same_iff.2 (htree.unique hspine), fun h => ?_⟩
  have hx := hsame.1 h ⟨0, "x"⟩ (by simp [Term.vars])
  contradiction

end RelLogic
