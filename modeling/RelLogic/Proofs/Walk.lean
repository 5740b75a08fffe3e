import Mathlib.Logic.Relation
import RelLogic.Subst.Basic

/-!
# Where walks lead

A walk ends at a variable without a binding or at a term that is no variable (`Subst.get?_of_walk?`).  It ends
wherever the variables that are bound to variables do not form a ring (`Subst.RingFree`): to follow `n` bindings is to
pass `n` different bound variables, and there are no more of them than bindings (`Subst.Leads.le_length`).  So the
bound on the length of a walk cuts none short that has an end (`Subst.walk?_var_eq_some_iff`), and a walk is to follow
bindings until there is none (`Subst.walk?_eq_some_iff`).
-/

namespace RelLogic

namespace Subst

open Relation (TransGen ReflTransGen)

/-- The first variable is bound to the second. -/
def Aliases (s : Subst) (x y : Var) : Prop :=
  s.get? x = some (.var y)

/-- No chain of variables, each bound to the next, comes back to where it began. -/
def RingFree (s : Subst) : Prop :=
  ∀ x, ¬TransGen s.Aliases x x

/-- The variables that have bindings, the latest binding first. -/
def bound (s : Subst) : List Var :=
  s.bindings.map Prod.fst

@[simp] theorem bound_extend (s : Subst) (x : Var) (t : Term) : (s.extend x t).bound = x :: s.bound := rfl

theorem length_bound (s : Subst) : s.bound.length = s.bindings.length :=
  List.length_map _

theorem get?_eq_none_iff {s : Subst} {x : Var} : s.get? x = none ↔ x ∉ s.bound := by
  simp only [get?, List.lookup_eq_none_iff, bne_iff_ne, ne_eq, bound, List.mem_map, not_exists, not_and]
  exact ⟨fun h b hb e => h b hb e.symm, fun h b hb e => h b hb e.symm⟩

theorem mem_bindings_of_get? {s : Subst} {x : Var} {t : Term} (h : s.get? x = some t) :
    (x, t) ∈ s.bindings := by
  obtain ⟨l₁, l₂, hb, -⟩ := List.lookup_eq_some_iff.1 h
  simp [hb]

/-- Where no variable is bound twice, each binding is the one that counts. -/
theorem get?_of_mem_bindings {s : Subst} (hs : s.bound.Nodup) {x : Var} {t : Term} (h : (x, t) ∈ s.bindings) :
    s.get? x = some t := by
  obtain ⟨l₁, l₂, hb⟩ := List.append_of_mem h
  refine List.lookup_eq_some_iff.2 ⟨l₁, l₂, hb, fun b hb₁ => ?_⟩
  have hne : x ≠ b.1 := by
    rintro rfl
    rw [bound, hb, List.map_append, List.nodup_append] at hs
    exact hs.2.2 b.1 (List.mem_map_of_mem hb₁) b.1 (List.mem_cons_self ..) rfl
  simpa using hne

theorem mem_bound_of_get? {s : Subst} {x : Var} {t : Term} (h : s.get? x = some t) : x ∈ s.bound :=
  List.mem_map.2 ⟨(x, t), mem_bindings_of_get? h, rfl⟩

/-- The substitutions that can be made: the empty one, and what one binding makes of another. -/
inductive Made : Subst → Prop
  | empty : Made .empty
  | extend {s : Subst} (hs : Made s) (x : Var) (t : Term) : Made (s.extend x t)

/-- However it was made, a substitution has as many bindings as it counts. -/
theorem Made.size_eq {s : Subst} (h : s.Made) : s.size = s.bindings.length := by
  induction h with
  | empty => rfl
  | extend _ _ _ ih => rw [size_extend, ih, Subst.extend, List.length_cons]

/-- Any bindings can be made, and they come with their number as the count. -/
theorem made_iff {s : Subst} : s.Made ↔ s.size = s.bindings.length := by
  refine ⟨Made.size_eq, fun h => ?_⟩
  rcases s with ⟨bindings, size⟩
  obtain rfl : size = bindings.length := h
  induction bindings with
  | nil => exact .empty
  | cons b bindings ih => exact ih.extend b.1 b.2

/-! ### The end of a walk -/

private theorem get?_of_chase? {s : Subst} {n : Nat} {x y : Var} (h : s.chase? n x = some (.var y)) :
    s.get? y = none := by
  fun_induction chase? s n x with
  | case1 n x hx =>
    obtain rfl : x = y := by simpa using h
    exact hx
  | case2 => contradiction
  | case3 x z _ n ih => exact ih h
  | case4 n x t hne hx =>
    obtain rfl : t = .var y := by simpa using h
    exact (hne y rfl).elim

/-- A variable at which a walk ends has no binding. -/
theorem get?_of_walk? {s : Subst} {t : Term} {y : Var} (h : s.walk? t = some (.var y)) : s.get? y = none := by
  cases t with
  | var x => exact get?_of_chase? h
  | _ => simp [walk?] at h

theorem walk?_of_get?_eq_none {s : Subst} {x : Var} (h : s.get? x = none) : s.walk? (.var x) = some (.var x) := by
  rw [walk?_var, chase?, h]

/-- Where a walk has ended there is nowhere to go on to. -/
theorem walk?_of_walk? {s : Subst} {t u : Term} (h : s.walk? t = some u) : s.walk? u = some u := by
  cases u with
  | var y => exact walk?_of_get?_eq_none (get?_of_walk? h)
  | _ => rfl

private theorem exists_get?_of_chase? {s : Subst} {n : Nat} {x : Var} {t : Term} (h : s.chase? n x = some t)
    (ht : t.isVar = false) : ∃ y, ReflTransGen s.Aliases x y ∧ s.get? y = some t := by
  fun_induction chase? s n x with
  | case1 n x hx =>
    obtain rfl : .var x = t := by simpa using h
    simp [Term.isVar, Term.asVar?] at ht
  | case2 => contradiction
  | case3 x z hx n ih =>
    obtain ⟨y, hzy, hy⟩ := ih h
    have hxz : s.Aliases x z := hx
    exact ⟨y, .head hxz hzy, hy⟩
  | case4 n x u _ hx =>
    obtain rfl : u = t := by simpa using h
    exact ⟨x, .refl, hx⟩

/-- A walk from a variable to a term that is no variable ends with the binding of that term. -/
theorem exists_get?_of_walk? {s : Subst} {x : Var} {t : Term} (h : s.walk? (.var x) = some t)
    (ht : t.isVar = false) : ∃ y, ReflTransGen s.Aliases x y ∧ s.get? y = some t :=
  exists_get?_of_chase? h ht

private theorem chase?_succ {s : Subst} {n : Nat} {x : Var} {t : Term} (h : s.chase? n x = some t) :
    s.chase? (n + 1) x = some t := by
  fun_induction chase? s n x with
  | case1 n x hx =>
    rw [chase?, hx]
    exact h
  | case2 => contradiction
  | case3 x z hx n ih =>
    rw [chase?, hx]
    exact ih h
  | case4 n x u hne hx =>
    rw [chase?, hx]
    cases u with
    | var y => exact (hne y rfl).elim
    | _ => exact h

private theorem chase?_mono {s : Subst} {n m : Nat} {x : Var} {t : Term} (hnm : n ≤ m)
    (h : s.chase? n x = some t) : s.chase? m x = some t := by
  induction hnm with
  | refl => exact h
  | step _ ih => exact chase?_succ ih

/-! ### Following bindings -/

/-- Following this many bindings, one after the other, leads from the first term to the second. -/
inductive Leads (s : Subst) : Term → Nat → Term → Prop
  | here (t : Term) : s.Leads t 0 t
  | step {x : Var} {t u : Term} {n : Nat} (hx : s.get? x = some t) (h : s.Leads t n u) : s.Leads (.var x) (n + 1) u

theorem Leads.trans {s : Subst} {t u w : Term} {n m : Nat} (h : s.Leads t n u) (h' : s.Leads u m w) :
    ∃ k, s.Leads t k w := by
  induction h with
  | here t => exact ⟨m, h'⟩
  | step hx _ ih =>
    obtain ⟨k, hk⟩ := ih h'
    exact ⟨k + 1, .step hx hk⟩

/-- Outside rings all the variables that are passed are different, and they are bound. -/
private theorem Leads.exists_path {s : Subst} {t u : Term} {n : Nat} (h : s.Leads t n u)
    (hs : ∀ x, t = .var x → ∀ y, ReflTransGen s.Aliases x y → ¬TransGen s.Aliases y y) :
    ∃ path : List Var, path.length = n ∧ path.Nodup ∧
      ∀ y ∈ path, y ∈ s.bound ∧ ∃ x, t = .var x ∧ ReflTransGen s.Aliases x y := by
  induction h with
  | here t => exact ⟨[], rfl, List.nodup_nil, List.forall_mem_nil _⟩
  | @step x t u n hx _ ih =>
    have hnext : ∀ {z}, t = .var z → s.Aliases x z := by
      rintro z rfl
      exact hx
    obtain ⟨path, hlen, hnd, hpath⟩ := ih fun z hz y hzy => hs x rfl y (hzy.head (hnext hz))
    have hafter : ∀ y ∈ path, TransGen s.Aliases x y := by
      intro y hy
      obtain ⟨-, z, hz, hzy⟩ := hpath y hy
      exact TransGen.head' (hnext hz) hzy
    refine ⟨x :: path, by rw [List.length_cons, hlen], List.nodup_cons.2 ⟨fun hmem => ?_, hnd⟩, ?_⟩
    · exact hs x rfl x .refl (hafter x hmem)
    · refine List.forall_mem_cons.2 ⟨⟨mem_bound_of_get? hx, x, rfl, .refl⟩, fun y hy => ⟨(hpath y hy).1, x, rfl, ?_⟩⟩
      exact (hafter y hy).to_reflTransGen

private theorem Leads.le_length_of_no_ring {s : Subst} {t u : Term} {n : Nat} (h : s.Leads t n u)
    (hs : ∀ x, t = .var x → ∀ y, ReflTransGen s.Aliases x y → ¬TransGen s.Aliases y y) : n ≤ s.bindings.length := by
  obtain ⟨path, hlen, hnd, hpath⟩ := h.exists_path hs
  have hle := hnd.length_le_of_subset fun y hy => (hpath y hy).1
  rwa [hlen, length_bound] at hle

/-- Without rings no more bindings can be followed than there are. -/
theorem Leads.le_length {s : Subst} {t u : Term} {n : Nat} (h : s.Leads t n u) (hs : s.RingFree) :
    n ≤ s.bindings.length :=
  h.le_length_of_no_ring fun _ _ y _ => hs y

/-! ### Walks without rings -/

/-- A walk that is not done after `n` bindings can follow one more. -/
private theorem exists_leads_of_chase?_eq_none {s : Subst} {n : Nat} {x : Var} (h : s.chase? n x = none) :
    ∃ u, s.Leads (.var x) (n + 1) u := by
  fun_induction chase? s n x with
  | case1 => contradiction
  | case2 x y hx => exact ⟨_, .step hx (.here _)⟩
  | case3 x y hx n ih =>
    obtain ⟨u, hu⟩ := ih h
    exact ⟨u, .step hx hu⟩
  | case4 => contradiction

private theorem exists_chase?_of_no_ring {s : Subst} {x : Var}
    (hs : ∀ y, ReflTransGen s.Aliases x y → ¬TransGen s.Aliases y y) :
    ∃ u, s.chase? s.bindings.length x = some u := by
  rw [← Option.ne_none_iff_exists']
  intro h
  obtain ⟨u, hu⟩ := exists_leads_of_chase?_eq_none h
  have hle : s.bindings.length + 1 ≤ s.bindings.length :=
    hu.le_length_of_no_ring fun y hy => by rwa [← Term.var.inj hy]
  omega

/-- No variable that is passed on the way to an end is in a ring. -/
private theorem no_ring_of_chase? {s : Subst} {n : Nat} {x : Var} {t : Term} (h : s.chase? n x = some t) :
    ∀ y, ReflTransGen s.Aliases x y → ¬TransGen s.Aliases y y := by
  -- where the chain cannot go on, `x` is the only variable that is passed
  have hlast : ∀ {x}, (∀ z, ¬s.Aliases x z) → ∀ y, ReflTransGen s.Aliases x y → ¬TransGen s.Aliases y y := by
    intro x hx y hxy hyy
    obtain rfl : x = y := by
      rcases ReflTransGen.cases_head hxy with rfl | ⟨z, hxz, -⟩
      · rfl
      · exact (hx z hxz).elim
    obtain ⟨z, hxz, -⟩ := TransGen.head'_iff.1 hyy
    exact hx z hxz
  fun_induction chase? s n x with
  | case1 n x hx =>
    apply hlast
    intro z hxz
    simp [Aliases, hx] at hxz
  | case2 => contradiction
  | case3 x z hx n ih =>
    have hnext : ∀ {w}, s.Aliases x w → w = z := by
      intro w hxw
      simpa [Aliases, hx, eq_comm] using hxw
    intro y hxy hyy
    rcases ReflTransGen.cases_head hxy with rfl | ⟨w, hxw, hwy⟩
    · obtain ⟨w, hxw, hwx⟩ := TransGen.head'_iff.1 hyy
      obtain rfl := hnext hxw
      exact ih h w .refl (TransGen.tail' hwx hxw)
    · obtain rfl := hnext hxw
      exact ih h y hwy hyy
  | case4 n x u hne hx =>
    apply hlast
    intro z hxz
    rw [Aliases, hx] at hxz
    exact hne z (Option.some.inj hxz)

/-- A walk from a variable ends if it ends after any number of bindings at all. -/
theorem walk?_var_eq_some_iff {s : Subst} {x : Var} {t : Term} :
    s.walk? (.var x) = some t ↔ ∃ n, s.chase? n x = some t := by
  constructor
  · intro h
    exact ⟨_, h⟩
  · rintro ⟨n, hn⟩
    obtain ⟨u, hu⟩ := exists_chase?_of_no_ring (no_ring_of_chase? hn)
    have hmax := chase?_mono (Nat.le_max_left n s.bindings.length) hn
    rw [chase?_mono (Nat.le_max_right n s.bindings.length) hu] at hmax
    rw [walk?_var, hu, hmax]

/-- Without rings every walk comes to an end. -/
theorem exists_walk? {s : Subst} (hs : s.RingFree) (t : Term) : ∃ u, s.walk? t = some u := by
  cases t with
  | var x => exact exists_chase?_of_no_ring fun y _ => hs y
  | _ => exact ⟨_, rfl⟩

/-- Where every walk comes to an end there are no rings. -/
theorem ringFree_of_walks {s : Subst} (hs : ∀ t, ∃ u, s.walk? t = some u) : s.RingFree := by
  intro x
  obtain ⟨u, hu⟩ := hs (.var x)
  exact no_ring_of_chase? hu x .refl

/-- A walk from a bound variable goes on where its term is walked. -/
theorem walk?_var_of_walk? {s : Subst} {x : Var} {t u : Term} (hx : s.get? x = some t) (h : s.walk? t = some u) :
    s.walk? (.var x) = some u := by
  rw [walk?_var_eq_some_iff]
  refine ⟨s.bindings.length + 1, ?_⟩
  rw [chase?, hx]
  cases t with
  | var y => exact h
  | _ => exact h

/-- A bound variable is walked to where its term is walked. -/
theorem walk?_of_get? {s : Subst} (hs : s.RingFree) {x : Var} {t : Term} (hx : s.get? x = some t) :
    s.walk? (.var x) = s.walk? t := by
  obtain ⟨u, hu⟩ := exists_walk? hs t
  rw [hu, walk?_var_of_walk? hx hu]

/-- To look a variable up is to walk from it. -/
theorem lookup?_eq_walk? {s : Subst} (hs : s.RingFree) (x : Var) : s.lookup? x = s.walk? (.var x) := by
  unfold lookup?
  split
  · rename_i hx
    exact (walk?_of_get?_eq_none hx).symm
  · rename_i t hx
    exact (walk?_of_get? hs hx).symm

/-! ### The ends of walks -/

/-- A term at which a walk can end: no variable, or a variable without a binding. -/
def Ends (s : Subst) (t : Term) : Prop :=
  ∀ y, t = .var y → s.get? y = none

theorem Ends.walk? {s : Subst} {t : Term} (h : s.Ends t) : s.walk? t = some t := by
  cases t with
  | var x => exact walk?_of_get?_eq_none (h x rfl)
  | _ => rfl

private theorem exists_leads_of_chase?_eq_some {s : Subst} {n : Nat} {x : Var} {u : Term} (h : s.chase? n x = some u) :
    ∃ n, s.Leads (.var x) n u := by
  fun_induction chase? s n x with
  | case1 n x _ =>
    obtain rfl := Option.some.inj h
    exact ⟨0, .here _⟩
  | case2 => contradiction
  | case3 x y hx n ih =>
    obtain ⟨k, hk⟩ := ih h
    exact ⟨k + 1, .step hx hk⟩
  | case4 n x t _ hx =>
    obtain rfl := Option.some.inj h
    exact ⟨1, .step hx (.here _)⟩

/-- To walk is to follow bindings until there is none. -/
theorem walk?_eq_some_iff {s : Subst} {t u : Term} : s.walk? t = some u ↔ (∃ n, s.Leads t n u) ∧ s.Ends u := by
  constructor
  · intro h
    constructor
    · cases t with
      | var x => exact exists_leads_of_chase?_eq_some h
      | _ => exact ⟨0, Option.some.inj h ▸ .here _⟩
    · rintro y rfl
      exact get?_of_walk? h
  · rintro ⟨⟨n, h⟩, hu⟩
    induction h with
    | here t => exact hu.walk?
    | step hx _ ih => exact walk?_var_of_walk? hx (ih hu)

/-- What every binding that is followed keeps, a walk keeps. -/
theorem walk?_ind {s : Subst} {t u : Term} {P : Term → Prop}
    (hstep : ∀ x v, s.get? x = some v → P (.var x) → P v) (h : s.walk? t = some u) (ht : P t) : P u := by
  obtain ⟨⟨n, hn⟩, -⟩ := walk?_eq_some_iff.1 h
  clear h
  induction hn with
  | here t => exact ht
  | step hx _ ih => exact ih (hstep _ _ hx ht)

/-! ### Walks when all terms are replaced -/

/-- Different variables are replaced by different ones, also as terms, and all other terms by other terms. -/
structure Replaces (f : Var → Var) (F : Term → Term) : Prop where
  inj : Function.Injective f
  var : ∀ x, F (.var x) = .var (f x)
  other : ∀ t, t.isVar = false → (F t).isVar = false

variable {f : Var → Var} {F : Term → Term} {s r : Subst}

theorem get?_map (h : Replaces f F) (hr : r.bindings = s.bindings.map fun b => (f b.1, F b.2)) (x : Var) :
    r.get? (f x) = (s.get? x).map F := by
  rw [get?, get?, hr]
  induction s.bindings with
  | nil => rfl
  | cons b bindings ih =>
    have hvar : (f x == f b.1) = (x == b.1) := by rw [Bool.eq_iff_iff, beq_iff_eq, beq_iff_eq, h.inj.eq_iff]
    rw [List.map_cons, List.lookup_cons, List.lookup_cons, hvar, ih]
    split <;> rfl

private theorem chase?_map (h : Replaces f F) (hr : r.bindings = s.bindings.map fun b => (f b.1, F b.2)) (n : Nat)
    (x : Var) : r.chase? n (f x) = (s.chase? n x).map F := by
  fun_induction chase? s n x with
  | case1 n x hx => rw [chase?, get?_map h hr, hx, Option.map_none, Option.map_some, h.var]
  | case2 x y hx => rw [chase?, get?_map h hr, hx, Option.map_some, h.var, Option.map_none]
  | case3 x y hx n ih =>
    rw [chase?, get?_map h hr, hx, Option.map_some, h.var]
    exact ih
  | case4 n x t hne hx =>
    have ht : (F t).isVar = false := by
      apply h.other
      cases t with
      | var y => exact (hne y rfl).elim
      | _ => rfl
    rw [chase?, get?_map h hr, hx, Option.map_some]
    cases hF : F t with
    | var y => simp [hF, Term.isVar, Term.asVar?] at ht
    | _ => rfl

theorem walk?_map (h : Replaces f F) (hr : r.bindings = s.bindings.map fun b => (f b.1, F b.2)) (t : Term) :
    r.walk? (F t) = (s.walk? t).map F := by
  cases ht : t.isVar with
  | true =>
    obtain ⟨x, rfl⟩ : ∃ x, t = .var x := by
      cases t <;> simp [Term.isVar, Term.asVar?] at ht
      exact ⟨_, rfl⟩
    rw [h.var, walk?_var, walk?_var, hr, List.length_map, chase?_map h hr]
  | false => rw [walk?_of_not_var _ (h.other t ht), walk?_of_not_var s ht, Option.map_some]

end Subst

end RelLogic
