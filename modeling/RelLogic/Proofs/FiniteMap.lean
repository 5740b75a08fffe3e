import Mathlib.Data.List.Perm.Subperm
import RelLogic.Proofs.Locality
import RelLogic.Proofs.SameTree

/-!
# Substitutions as finite maps

Two substitutions in which no variable is bound twice are equal if and only if they have the same terms for all
variables (`Subst.same_iff_alike`).  The comparison looks at the bindings of the left side only, and at the two counts.
That no variable of the right side is left over follows from these: however the two were made, their counts are right,
so the left side has as many bindings, and as they are of different variables, their variables are all those of the
right side (`Subst.perm_bound_of_same`).  Where a variable is bound twice this fails, and a substitution need not even
be equal to itself.

Equal substitutions walk, look up and resolve alike (`Subst.Alike`): their bare forms have the same bindings, and
neither walking nor resolving looks at serial numbers.
-/

namespace RelLogic

theorem Term.isPair_bare (t : Term) : t.bare.isPair = t.isPair := by
  cases t <;> rfl

namespace Subst

variable {s r : Subst} {t u : Term} {x : Var}

/-! ### Equality -/

/-- The substitution can be made, and no variable is bound twice in it. -/
structure IsMap (s : Subst) : Prop where
  made : s.Made
  nodup : s.bound.Nodup

theorem IsMap.length_bound (hs : s.IsMap) : s.bound.length = s.size := by
  rw [Subst.length_bound, hs.made.size_eq]

/-- The substitutions have the same tree for every variable, or none. -/
def Alike (s r : Subst) : Prop :=
  ∀ x, Term.SameOrNone (s.get? x) (r.get? x)

theorem same_eq_true_iff :
    s.same r = true ↔ s.size = r.size ∧ ∀ b ∈ s.bindings, ∃ t, r.get? b.1 = some t ∧ t.same b.2 = true := by
  rw [same, Bool.and_eq_true, beq_iff_eq, List.all_eq_true]
  refine and_congr_right fun _ => forall₂_congr fun b _ => ?_
  cases r.get? b.1 <;> simp

/-- Equal substitutions bind the same variables.  On the left they are different, so there are too many for any variable
of the right to be left over. -/
theorem perm_bound_of_same (hs : s.IsMap) (hr : r.IsMap) (h : s.same r = true) : s.bound.Perm r.bound := by
  obtain ⟨hsize, hbindings⟩ := same_eq_true_iff.1 h
  have hsubset : s.bound ⊆ r.bound := by
    intro x hx
    obtain ⟨b, hb, rfl⟩ := List.mem_map.1 hx
    obtain ⟨t, ht, -⟩ := hbindings b hb
    exact mem_bound_of_get? ht
  refine (hs.nodup.subperm hsubset).perm_of_length_le ?_
  rw [hr.length_bound, hs.length_bound, hsize]

theorem same_iff_alike (hs : s.IsMap) (hr : r.IsMap) : s.same r = true ↔ s.Alike r := by
  constructor
  · intro h x
    cases hx : s.get? x with
    | none =>
      have hfree : r.get? x = none := by
        rw [get?_eq_none_iff, ← (perm_bound_of_same hs hr h).mem_iff, ← get?_eq_none_iff]
        exact hx
      rw [hfree]
      exact .none
    | some t =>
      obtain ⟨u, hu, hut⟩ := (same_eq_true_iff.1 h).2 (x, t) (mem_bindings_of_get? hx)
      rw [hu]
      exact .some (Term.same_iff.2 (Term.same_iff.1 hut).symm)
  · intro h
    have hbound : s.bound.Perm r.bound := by
      rw [List.perm_ext_iff_of_nodup hs.nodup hr.nodup]
      intro x
      rw [← not_iff_not, ← get?_eq_none_iff, ← get?_eq_none_iff]
      have hx := Term.sameOrNone_iff.1 (h x)
      rw [← Option.map_eq_none_iff (f := Term.bare), hx, Option.map_eq_none_iff]
    refine same_eq_true_iff.2 ⟨?_, fun b hb => ?_⟩
    · rw [← hs.length_bound, ← hr.length_bound, hbound.length_eq]
    · have hb' := h b.1
      rw [get?_of_mem_bindings hs.nodup hb] at hb'
      generalize hu : r.get? b.1 = u? at hb'
      cases hb' with
      | some hbu => exact ⟨_, rfl, Term.same_iff.2 (Term.same_iff.1 hbu).symm⟩

/-! ### Equal substitutions do the same -/

theorem alike_iff : s.Alike r ↔ ∀ x, s.bare.get? x = r.bare.get? x := by
  refine forall_congr' fun x => ?_
  rw [Term.sameOrNone_iff, get?_bare, get?_bare]

theorem Alike.symm (h : s.Alike r) : r.Alike s :=
  alike_iff.2 fun x => (alike_iff.1 h x).symm

theorem Alike.trans {q : Subst} (h : s.Alike r) (h' : r.Alike q) : s.Alike q :=
  alike_iff.2 fun x => (alike_iff.1 h x).trans (alike_iff.1 h' x)

/-- Where no variable is bound twice, the order of the bindings does not matter. -/
theorem alike_of_perm (hs : s.bound.Nodup) (h : s.bindings.Perm r.bindings) : s.Alike r :=
  alike_iff.2 fun x => by rw [get?_bare, get?_bare, (agreeOn_of_perm hs h).get? x trivial]

/-- Terms of one structure walk to terms of one structure, or the walk has no end in either substitution. -/
theorem Alike.walk? (h : s.Alike r) (htu : t.bare = u.bare) : Term.SameOrNone (s.walk? t) (r.walk? u) := by
  have hagree : s.bare.AgreeOn Set.univ r.bare :=
    ⟨fun _ _ _ _ _ _ => trivial, fun x _ => (alike_iff.1 h x).symm⟩
  have hover : t.bare.Over Set.univ := fun _ _ => trivial
  rw [Term.sameOrNone_iff]
  calc (s.walk? t).map Term.bare
    _ = s.bare.walk? t.bare := (s.walk?_bare t).symm
    _ = r.bare.walk? t.bare := (hagree.walk? hover).symm
    _ = r.bare.walk? u.bare := by rw [htu]
    _ = (r.walk? u).map Term.bare := r.walk?_bare u

theorem Alike.lookup? (h : s.Alike r) (x : Var) : Term.SameOrNone (s.lookup? x) (r.lookup? x) := by
  unfold Subst.lookup?
  have hx := h x
  generalize s.get? x = t? at hx
  generalize r.get? x = u? at hx
  cases hx with
  | none => exact .some (Term.same_iff.2 rfl)
  | some htu => exact h.walk? (Term.same_iff.1 htu)

theorem Alike.exists_walk? (h : s.Alike r) (htu : t.bare = u.bare) {w : Term} (hw : s.walk? t = some w) :
    ∃ w', r.walk? u = some w' ∧ w.bare = w'.bare := by
  have hwalk := Term.sameOrNone_iff.1 (h.walk? htu)
  rw [hw, Option.map_some] at hwalk
  obtain ⟨w', hw', hbare⟩ := Option.map_eq_some_iff.1 hwalk.symm
  exact ⟨w', hw', hbare.symm⟩

/-- Terms of one structure resolve to the same tree. -/
theorem Alike.resolves (h : s.Alike r) {q : Term} (ht : s.Resolves t q) (htu : t.bare = u.bare) : r.Resolves u q := by
  induction ht generalizing u with
  | @leaf t w hw hleaf =>
    obtain ⟨w', hw', hbare⟩ := h.exists_walk? htu hw
    rw [hbare]
    refine .leaf hw' ?_
    rw [← Term.isPair_bare, ← hbare, Term.isPair_bare]
    exact hleaf
  | @pair t a d a' d' i hw _ _ iha ihd =>
    obtain ⟨w', hw', hbare⟩ := h.exists_walk? htu hw
    cases w' with
    | pair j b e =>
      obtain ⟨hcar, hcdr⟩ : a.bare = b.bare ∧ d.bare = e.bare := by simpa [Term.bare] using hbare
      exact .pair hw' (iha hcar) (ihd hcdr)
    | _ => simp [Term.bare] at hbare

theorem Alike.exists_resolve? (h : s.Alike r) {p : Term × Supply} {σ : Supply} (hp : s.resolve? t σ = some p)
    (τ : Supply) : ∃ q, r.resolve? t τ = some q ∧ p.1.same q.1 = true := by
  have htree : r.Resolves t p.1.bare := h.resolves (resolves_of_resolve? hp) rfl
  obtain ⟨u, τ', hu⟩ := htree.exists_resolve? τ
  exact ⟨(u, τ'), hu, Term.same_iff.2 (htree.unique (resolves_of_resolve? hu))⟩

/-- A term resolves to the same tree in both substitutions, or it has no resolved form in either. -/
theorem Alike.resolve? (h : s.Alike r) (t : Term) (σ τ : Supply) :
    Option.Rel (fun p q => p.1.same q.1 = true) (s.resolve? t σ) (r.resolve? t τ) := by
  cases hp : s.resolve? t σ with
  | some p =>
    obtain ⟨q, hq, hsame⟩ := h.exists_resolve? hp τ
    rw [hq]
    exact .some hsame
  | none =>
    cases hq : r.resolve? t τ with
    | some q =>
      obtain ⟨p, hp', -⟩ := h.symm.exists_resolve? hq σ
      rw [hp] at hp'
      contradiction
    | none => exact .none

end Subst

/-! ### Main statement -/

/-- Where no variable is bound twice, substitutions are equal if and only if they have the same tree for every variable,
or none in both, however they were made.  So equality is an equivalence, the order of the bindings does not matter to
it, and in equal substitutions every term is walked, looked up and resolved to the same tree, if to any. -/
theorem same_iff_same_maps {s r : Subst} (hs : s.IsMap) (hr : r.IsMap) :
    (s.same r = true ↔ ∀ x, Term.SameOrNone (s.get? x) (r.get? x)) ∧
    s.same s = true ∧
    (s.same r = true → r.same s = true) ∧
    (∀ q : Subst, q.IsMap → s.same r = true → r.same q = true → s.same q = true) ∧
    (∀ q : Subst, q.Made → s.bindings.Perm q.bindings →
      s.same q = true ∧ q.same r = s.same r ∧ r.same q = r.same s) ∧
    (s.same r = true →
      (∀ t, Term.SameOrNone (s.walk? t) (r.walk? t)) ∧ (∀ x, Term.SameOrNone (s.lookup? x) (r.lookup? x)) ∧
        ∀ t σ τ, Option.Rel (fun p q => p.1.same q.1 = true) (s.resolve? t σ) (r.resolve? t τ)) := by
  refine ⟨Subst.same_iff_alike hs hr, ?_, fun h => ?_, fun q hq h h' => ?_, fun q hmade hperm => ?_, fun h => ?_⟩
  · exact (Subst.same_iff_alike hs hs).2 (Subst.alike_of_perm hs.nodup (List.Perm.refl _))
  · exact (Subst.same_iff_alike hr hs).2 ((Subst.same_iff_alike hs hr).1 h).symm
  · exact (Subst.same_iff_alike hs hq).2 (((Subst.same_iff_alike hs hr).1 h).trans ((Subst.same_iff_alike hr hq).1 h'))
  · have hq : q.IsMap := ⟨hmade, (hperm.map Prod.fst).nodup_iff.1 hs.nodup⟩
    have hsq : s.Alike q := Subst.alike_of_perm hs.nodup hperm
    refine ⟨(Subst.same_iff_alike hs hq).2 hsq, ?_, ?_⟩
    · rw [Bool.eq_iff_iff, Subst.same_iff_alike hq hr, Subst.same_iff_alike hs hr]
      exact ⟨hsq.trans, hsq.symm.trans⟩
    · rw [Bool.eq_iff_iff, Subst.same_iff_alike hr hq, Subst.same_iff_alike hr hs]
      exact ⟨fun h => h.trans hsq.symm, fun h => h.trans hsq⟩
  · have hsr := (Subst.same_iff_alike hs hr).1 h
    exact ⟨fun t => hsr.walk? rfl, hsr.lookup?, hsr.resolve?⟩

/-- The substitution in which `x` is bound to `y`, and then `y` to an atom `true`. -/
private def xFirst : Subst :=
  ⟨[(⟨1, "y"⟩, .atom 0 (.bool true)), (⟨0, "x"⟩, .var ⟨1, "y"⟩)], 2⟩

/-- The substitution in which `y` is bound to another atom `true`, and then `x` to `y`. -/
private def yFirst : Subst :=
  ⟨[(⟨0, "x"⟩, .var ⟨1, "y"⟩), (⟨1, "y"⟩, .atom 1 (.bool true))], 2⟩

/-- The order of the two bindings does not matter, nor which atom `true` it is. -/
theorem same_iff_same_maps_order :
    xFirst.IsMap ∧ yFirst.IsMap ∧ xFirst.same yFirst = true ∧
      Term.SameOrNone (xFirst.walk? (.var ⟨0, "x"⟩)) (yFirst.walk? (.var ⟨0, "x"⟩)) := by
  have hx : xFirst.IsMap := ⟨Subst.made_iff.2 rfl, by decide⟩
  have hy : yFirst.IsMap := ⟨Subst.made_iff.2 rfl, by decide⟩
  obtain ⟨hsame, -, -, -, -, hwalks⟩ := same_iff_same_maps hx hy
  have hequal : xFirst.same yFirst = true := by
    refine hsame.2 fun z => Term.sameOrNone_iff.2 ?_
    by_cases hzx : z = ⟨0, "x"⟩
    · subst hzx
      rfl
    · by_cases hzy : z = ⟨1, "y"⟩
      · subst hzy
        rfl
      · have hfree : z ∉ xFirst.bound ∧ z ∉ yFirst.bound := by simp [xFirst, yFirst, Subst.bound, hzx, hzy]
        rw [Subst.get?_eq_none_iff.2 hfree.1, Subst.get?_eq_none_iff.2 hfree.2]
  exact ⟨hx, hy, hequal, (hwalks hequal).1 _⟩

/-- With two bindings of one variable a substitution is not equal to itself. -/
example : Subst.same ⟨[(⟨0, "x"⟩, .nil), (⟨0, "x"⟩, .atom 0 (.bool true))], 2⟩
    ⟨[(⟨0, "x"⟩, .nil), (⟨0, "x"⟩, .atom 0 (.bool true))], 2⟩ = false := by
  cbv

end RelLogic
