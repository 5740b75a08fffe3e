import RelLogic.Proofs.Solver

/-!
# The recursive unifier

`unifyRec?` unifies two pairs by unifying their cars to the end and then, unless that failed, their cdrs under the
bindings made for the cars.  It keeps no list of pending equations.  A run of the unifier on a list of equations is
the recursion on the first of them followed by a run on the others (`solves_cons_iff`): the pairs that wait on the
list are the calls to which the recursion comes back.  So the two end on the same problems, with the same bindings
in the same order and the same events (`unify?_iff_unifyRec?`).
-/

namespace RelLogic

/-! ### One computation after another -/

namespace Outcome

/-- The outcome of two computations: a failure of the first is the end, and otherwise the second begins with the
substitution at the end of the first. -/
def andThen (first : Outcome) (second : Subst → Option Outcome) : Option Outcome :=
  match first.store? with
  | none => some first
  | some s => (second s).map fun o => { o with events := first.events ++ o.events }

/-- The first outcome can be followed by outcomes of the second kind, and together they are the last. -/
def Then (first : Outcome) (second : Subst → Outcome → Prop) (last : Outcome) : Prop :=
  match first.store? with
  | none => last = first
  | some s => ∃ o, second s o ∧ last = { o with events := first.events ++ o.events }

theorem andThen_eq_some_iff {first last : Outcome} {f : Subst → Option Outcome} :
    first.andThen f = some last ↔ first.Then (fun s o => f s = some o) last := by
  unfold andThen Then
  split
  · simp [eq_comm]
  · simp only [Option.map_eq_some_iff, eq_comm (a := last)]

theorem Then.mono {first last : Outcome} {P Q : Subst → Outcome → Prop} (h : first.Then P last)
    (hPQ : ∀ s o, P s o → Q s o) : first.Then Q last := by
  unfold Then at h ⊢
  split at h
  · exact h
  · obtain ⟨o, ho, rfl⟩ := h
    exact ⟨o, hPQ _ o ho, rfl⟩

@[simp] theorem then_of_success {s : Subst} {events : List Event} {P : Subst → Outcome → Prop} {last : Outcome} :
    Then ⟨events, some s⟩ P last ↔ ∃ o, P s o ∧ last = { o with events := events ++ o.events } := Iff.rfl

@[simp] theorem then_of_failure {events : List Event} {P : Subst → Outcome → Prop} {last : Outcome} :
    Then ⟨events, none⟩ P last ↔ last = ⟨events, none⟩ := Iff.rfl

theorem then_assoc {first last : Outcome} {P Q : Subst → Outcome → Prop} :
    (∃ mid, first.Then P mid ∧ mid.Then Q last) ↔ first.Then (fun s o => ∃ mid, P s mid ∧ mid.Then Q o) last := by
  obtain ⟨events, _ | s⟩ := first
  · simp
  · simp only [then_of_success]
    constructor
    · rintro ⟨_, ⟨⟨events₁, _ | s₁⟩, h₁, rfl⟩, h⟩
      · exact ⟨_, ⟨_, h₁, rfl⟩, h⟩
      · obtain ⟨o, ho, rfl⟩ := h
        exact ⟨_, ⟨_, h₁, o, ho, rfl⟩, by simp⟩
    · rintro ⟨_, ⟨⟨events₁, _ | s₁⟩, h₁, h⟩, rfl⟩
      · obtain rfl := then_of_failure.1 h
        exact ⟨_, ⟨_, h₁, rfl⟩, rfl⟩
      · obtain ⟨o, ho, rfl⟩ := then_of_success.1 h
        exact ⟨_, ⟨_, h₁, rfl⟩, o, ho, by simp⟩

end Outcome

/-! ### The recursion -/

/-- Unifies two terms under a substitution by recursion on pairs.  The number bounds the depth of the recursion. -/
def unifyRec? : Nat → Term → Term → Subst → Option Outcome
  | 0, _, _, _ => none
  | n + 1, u, v, s =>
    match s.walk? u, s.walk? v with
    | some u, some v =>
      if u = v then some ⟨[], some s⟩
      else
        match u, v with
        | .var x, _ => some ⟨[.extended x v], some (s.extend x v)⟩
        | _, .var y => some ⟨[.extended y u], some (s.extend y u)⟩
        | .pair _ a d, .pair _ b e => do
          let cars ← unifyRec? n a b s
          cars.andThen fun s' => unifyRec? n d e s'
        | .atom _ a, .atom _ b => if a = b then some ⟨[], some s⟩ else some ⟨[.clash u v], none⟩
        | _, _ => some ⟨[.clash u v], none⟩
    | _, _ => none

/-- What the recursion does with two terms is decided by the move for the walked terms. -/
theorem unifyRec?_succ (n : Nat) {u v u' v' : Term} {s : Subst} (hu : s.walk? u = some u')
    (hv : s.walk? v = some v') :
    unifyRec? (n + 1) u v s =
      match Move.of u' v' with
      | .agree => some ⟨[], some s⟩
      | .bind x t => some ⟨[.extended x t], some (s.extend x t)⟩
      | .split cars cdrs =>
        (unifyRec? n cars.lhs cars.rhs s).bind fun o => o.andThen (unifyRec? n cdrs.lhs cdrs.rhs)
      | .clash => some ⟨[.clash u' v'], none⟩ := by
  rw [unifyRec?, hu, hv]
  by_cases h : u' = v'
  · simp [Move.of, h]
  · cases u' <;> cases v' <;> simp only [Move.of, h, if_false]
    case atom.atom i a j b => by_cases hab : a = b <;> simp [hab]
    all_goals rfl

theorem exists_walk?_of_unifyRec? {n : Nat} {u v : Term} {s : Subst} {o : Outcome}
    (h : unifyRec? (n + 1) u v s = some o) : ∃ u' v', s.walk? u = some u' ∧ s.walk? v = some v' := by
  rw [unifyRec?] at h
  split at h
  · exact ⟨_, _, ‹_›, ‹_›⟩
  · contradiction

/-- The recursion ends on the equation with the outcome. -/
def UnifiesRec (e : Equation) (s : Subst) (o : Outcome) : Prop :=
  ∃ n, unifyRec? n e.lhs e.rhs s = some o

/-- More depth never changes an outcome. -/
theorem unifyRec?_mono {n m : Nat} {u v : Term} {s : Subst} {o : Outcome} (hnm : n ≤ m)
    (h : unifyRec? n u v s = some o) : unifyRec? m u v s = some o := by
  induction n generalizing m u v s o with
  | zero => simp [unifyRec?] at h
  | succ n ih =>
    obtain ⟨k, rfl⟩ : ∃ k, m = k + 1 := ⟨m - 1, by omega⟩
    have hnk : n ≤ k := by omega
    obtain ⟨u', v', hu, hv⟩ := exists_walk?_of_unifyRec? h
    rw [unifyRec?_succ n hu hv] at h
    rw [unifyRec?_succ k hu hv]
    cases hm : Move.of u' v' with
    | split cars cdrs =>
      simp only [hm, Option.bind_eq_some_iff, Outcome.andThen_eq_some_iff] at h ⊢
      obtain ⟨first, hfirst, h⟩ := h
      exact ⟨first, ih hnk hfirst, h.mono fun s o ho => ih hnk ho⟩
    | _ => simpa only [hm] using h

section

variable {s : Subst} {e cars cdrs : Equation} {u v t : Term} {x : Var} (hu : s.walk? e.lhs = some u)
  (hv : s.walk? e.rhs = some v)

include hu hv

theorem unifiesRec_agree (hm : Move.of u v = .agree) : UnifiesRec e s ⟨[], some s⟩ :=
  ⟨1, by rw [unifyRec?_succ 0 hu hv, hm]⟩

theorem unifiesRec_bind (hm : Move.of u v = .bind x t) :
    UnifiesRec e s ⟨[.extended x t], some (s.extend x t)⟩ :=
  ⟨1, by rw [unifyRec?_succ 0 hu hv, hm]⟩

theorem unifiesRec_clash (hm : Move.of u v = .clash) : UnifiesRec e s ⟨[.clash u v], none⟩ :=
  ⟨1, by rw [unifyRec?_succ 0 hu hv, hm]⟩

theorem unifiesRec_split (hm : Move.of u v = .split cars cdrs) {first last : Outcome}
    (hfirst : UnifiesRec cars s first) (hlast : first.Then (UnifiesRec cdrs) last) : UnifiesRec e s last := by
  obtain ⟨n, hn⟩ := hfirst
  have hdepth : ∃ k, n ≤ k ∧ first.Then (fun s o => unifyRec? k cdrs.lhs cdrs.rhs s = some o) last := by
    obtain ⟨events, _ | s'⟩ := first
    · exact ⟨n, Nat.le_refl n, hlast⟩
    · obtain ⟨o, ⟨m, hm⟩, rfl⟩ := hlast
      exact ⟨max n m, by omega, o, unifyRec?_mono (by omega) hm, rfl⟩
  obtain ⟨k, hnk, hk⟩ := hdepth
  refine ⟨k + 1, ?_⟩
  rw [unifyRec?_succ k hu hv, hm]
  simp only [Option.bind_eq_some_iff, Outcome.andThen_eq_some_iff]
  exact ⟨first, unifyRec?_mono hnk hn, hk⟩

end

/-! ### From the recursion to the list -/

/-- What the recursion does with an equation, and a run then does with others, is a run on all of them. -/
theorem solves_cons_of_unifyRec? {n : Nat} {e : Equation} {rest : List Equation} {s : Subst} {first last : Outcome}
    (h : unifyRec? n e.lhs e.rhs s = some first) (hlast : first.Then (fun s' => Solves s' rest) last) :
    Solves s (e :: rest) last := by
  induction n generalizing e rest s first last with
  | zero => simp [unifyRec?] at h
  | succ n ih =>
    obtain ⟨u, v, hu, hv⟩ := exists_walk?_of_unifyRec? h
    rw [unifyRec?_succ n hu hv] at h
    cases hm : Move.of u v with
    | agree =>
      simp only [hm, Option.some.injEq] at h
      subst h
      obtain ⟨o, ho, rfl⟩ := hlast
      exact .agree hu hv hm ho
    | bind x t =>
      simp only [hm, Option.some.injEq] at h
      subst h
      obtain ⟨o, ho, rfl⟩ := hlast
      exact .bind hu hv hm ho
    | split cars cdrs =>
      simp only [hm, Option.bind_eq_some_iff, Outcome.andThen_eq_some_iff] at h
      obtain ⟨carsEnd, hcars, hcdrs⟩ := h
      -- the cdrs wait at the front of the list while the cars are met
      have hwait := Outcome.then_assoc.1 ⟨first, hcdrs, hlast⟩
      refine .split hu hv hm (ih hcars (hwait.mono ?_))
      rintro s' o ⟨mid, hmid, ho⟩
      exact ih hmid ho
    | clash =>
      simp only [hm, Option.some.injEq] at h
      subst h
      obtain rfl := hlast
      exact .clash hu hv hm

/-! ### From the list to the recursion -/

/-- The recursion on each of the equations, one after the other. -/
def UnifiesRecAll : List Equation → Subst → Outcome → Prop
  | [], s, o => o = ⟨[], some s⟩
  | e :: rest, s, o => ∃ first, UnifiesRec e s first ∧ first.Then (UnifiesRecAll rest) o

theorem unifiesRecAll_of_solves {s : Subst} {pending : List Equation} {o : Outcome} (h : Solves s pending o) :
    UnifiesRecAll pending s o := by
  induction h with
  | done s => rfl
  | agree hu hv hm _ ih => exact ⟨_, unifiesRec_agree hu hv hm, _, ih, rfl⟩
  | bind hu hv hm _ ih => exact ⟨_, unifiesRec_bind hu hv hm, _, ih, rfl⟩
  | split hu hv hm _ ih =>
    -- the two equations in front are taken together as the recursion on the pairs they come from
    obtain ⟨first, hcars, hrest⟩ := ih
    obtain ⟨mid, hcdrs, hlast⟩ := Outcome.then_assoc.2 hrest
    exact ⟨mid, unifiesRec_split hu hv hm hcars hcdrs, hlast⟩
  | clash hu hv hm => exact ⟨_, unifiesRec_clash hu hv hm, rfl⟩

theorem solves_of_unifiesRecAll {s : Subst} {pending : List Equation} {o : Outcome}
    (h : UnifiesRecAll pending s o) : Solves s pending o := by
  induction pending generalizing s o with
  | nil =>
    obtain rfl := h
    exact .done s
  | cons e rest ih =>
    obtain ⟨first, ⟨n, hn⟩, hlast⟩ := h
    exact solves_cons_of_unifyRec? hn (hlast.mono fun s' o ho => ih ho)

/-- A run on a list of equations is the recursion on the first and then a run on the others. -/
theorem solves_cons_iff {e : Equation} {rest : List Equation} {s : Subst} {o : Outcome} :
    Solves s (e :: rest) o ↔ ∃ first, UnifiesRec e s first ∧ first.Then (fun s' => Solves s' rest) o := by
  constructor
  · intro h
    obtain ⟨first, hfirst, hlast⟩ := unifiesRecAll_of_solves h
    exact ⟨first, hfirst, hlast.mono fun s' o ho => solves_of_unifiesRecAll ho⟩
  · rintro ⟨first, ⟨n, hn⟩, hlast⟩
    exact solves_cons_of_unifyRec? hn hlast

theorem then_solves_nil {first last : Outcome} : first.Then (fun s => Solves s []) last ↔ last = first := by
  obtain ⟨events, _ | s⟩ := first
  · exact Iff.rfl
  · rw [Outcome.then_of_success]
    constructor
    · rintro ⟨o, ⟨⟩, rfl⟩
      rw [List.append_nil]
    · rintro rfl
      exact ⟨_, .done s, by rw [List.append_nil]⟩

theorem solves_singleton_iff {e : Equation} {s : Subst} {o : Outcome} : Solves s [e] o ↔ UnifiesRec e s o := by
  simp only [solves_cons_iff, then_solves_nil, exists_eq_right']

/-- A run on a list of equations is a run on the first alone and then a run on the others. -/
theorem solves_cons_iff_then {e : Equation} {rest : List Equation} {s : Subst} {o : Outcome} :
    Solves s (e :: rest) o ↔ ∃ first, Solves s [e] first ∧ first.Then (fun s' => Solves s' rest) o := by
  rw [solves_cons_iff]
  simp only [solves_singleton_iff]

/-! ### Main statement -/

/-- The unifier that keeps a list of pending equations ends with an outcome if and only if the recursive one does:
both fail, or both succeed with the same bindings in the same order, and both cause the same events. -/
theorem unify?_iff_unifyRec? (u v : Term) (s : Subst) (o : Outcome) :
    (∃ fuel, unify? fuel u v s = some o) ↔ ∃ depth, unifyRec? depth u v s = some o := by
  have hloop : (∃ fuel, unify? fuel u v s = some o) ↔ Solves s [⟨u, v⟩] o := solves_iff.symm
  rw [hloop, solves_cons_iff]
  constructor
  · rintro ⟨first, hfirst, hlast⟩
    obtain rfl := then_solves_nil.1 hlast
    exact hfirst
  · intro h
    exact ⟨o, h, then_solves_nil.2 rfl⟩

/-- In `((x . true))` and `((() . false) . y)` the cars fail after `x` was bound, and the cdrs are not tried. -/
example :
    unifyRec? 3 (.pair 0 (.pair 1 (.var ⟨0, "x"⟩) (.atom 2 (.bool true))) .nil)
      (.pair 3 (.pair 4 .nil (.atom 5 (.bool false))) (.var ⟨1, "y"⟩)) .empty =
      some ⟨[.extended ⟨0, "x"⟩ .nil, .clash (.atom 2 (.bool true)) (.atom 5 (.bool false))], none⟩ := by
  rfl

end RelLogic
