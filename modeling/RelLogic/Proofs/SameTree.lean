import RelLogic.Term.Same

/-!
# Comparing terms

Two terms are the same tree if their roots are alike and so are, in turn, the parts below them (`Term.SameTree`).  The
comparison takes one pair of terms at a time from those that are still to be compared, and puts the pairs of their
parts in its place.  In each round the left sides that are left have fewer objects together, so it comes to an end
after no more rounds than the left term has objects (`Term.compare?_eq`), although the list of pairs may grow on the
way.

The comparison may be told which terms are one object, and then does not look into them.  This never changes the
answer, as long as only terms with the same contents are said to be one object (`Term.Trusted`).
-/

namespace RelLogic

namespace Term

variable {s t : Term}

/-- The terms are the same tree: both the empty list, atoms of one kind and value, one variable, or pairs of which the
cars are the same tree, and the cdrs too. -/
inductive SameTree : Term → Term → Prop
  | nil : SameTree .nil .nil
  | atom (i j : Nat) (a : Atom) : SameTree (.atom i a) (.atom j a)
  | var (x : Var) : SameTree (.var x) (.var x)
  | pair {i j : Nat} {a b d e : Term} (car : SameTree a b) (cdr : SameTree d e) :
    SameTree (.pair i a d) (.pair j b e)

theorem sameTree_iff_bare : s.SameTree t ↔ s.bare = t.bare := by
  constructor
  · intro h
    induction h with
    | pair _ _ iha ihd => rw [bare, bare, iha, ihd]
    | _ => rfl
  · intro h
    induction s generalizing t with
    | nil =>
      cases t <;> simp only [bare, reduceCtorEq] at h
      exact .nil
    | atom i a =>
      cases t <;> simp only [bare, reduceCtorEq, atom.injEq, true_and] at h
      rw [h]
      exact .atom i _ _
    | var x =>
      cases t <;> simp only [bare, reduceCtorEq, var.injEq] at h
      rw [h]
      exact .var _
    | pair i a d iha ihd =>
      cases t <;> simp only [bare, reduceCtorEq, pair.injEq, true_and] at h
      exact .pair (iha h.1) (ihd h.2)

theorem same_iff_sameTree : s.same t = true ↔ s.SameTree t :=
  same_iff.trans sameTree_iff_bare.symm

theorem equivalence_same : Equivalence fun s t : Term => s.same t = true where
  refl _ := same_iff.2 rfl
  symm h := same_iff.2 (same_iff.1 h).symm
  trans h h' := same_iff.2 ((same_iff.1 h).trans (same_iff.1 h'))

/-- Both terms are missing, or they are the same tree. -/
def SameOrNone (t? u? : Option Term) : Prop :=
  Option.Rel (fun t u => t.same u = true) t? u?

theorem sameOrNone_iff {t? u? : Option Term} : SameOrNone t? u? ↔ t?.map bare = u?.map bare := by
  constructor
  · rintro (h | _)
    · exact congrArg some (same_iff.1 h)
    · rfl
  · intro h
    cases t? <;> cases u? <;> simp only [Option.map_none, Option.map_some, reduceCtorEq, Option.some.injEq] at h
    · exact .none
    · exact .some (same_iff.2 h)

/-! ### Rounds of the comparison -/

/-- The pairs of terms that are to be compared in place of two terms, unless these differ at the root.  The test says
which atoms and pairs are one object and need not be looked into. -/
def parts? (shared : Term → Term → Bool) : Term → Term → Option (List (Term × Term))
  | .nil, .nil => some []
  | .atom i a, .atom j b => if shared (.atom i a) (.atom j b) || a = b then some [] else none
  | .var x, .var y => if x = y then some [] else none
  | .pair i a d, .pair j b e => if shared (.pair i a d) (.pair j b e) then some [] else some [(a, b), (d, e)]
  | _, _ => none

/-- Compares the two sides of every given pair, in at most the given number of rounds. -/
def compare? (shared : Term → Term → Bool) : Nat → List (Term × Term) → Option Bool
  | _, [] => some true
  | 0, _ :: _ => none
  | n + 1, (s, t) :: rest =>
    match parts? shared s t with
    | some parts => compare? shared n (parts ++ rest)
    | none => some false

/-- The term and all terms inside it. -/
def subterms : Term → List Term
  | .pair i a d => .pair i a d :: (a.subterms ++ d.subterms)
  | t => [t]

theorem mem_subterms_self (t : Term) : t ∈ t.subterms := by
  cases t <;> simp [subterms]

/-- Of the terms inside the first term and those inside the second, the test takes none to be one object that are not
the same tree. -/
def Trusted (shared : Term → Term → Bool) (s t : Term) : Prop :=
  ∀ s' ∈ s.subterms, ∀ t' ∈ t.subterms, shared s' t' = true → s'.SameTree t'

variable {shared : Term → Term → Bool}

theorem Trusted.of_pair {i j : Nat} {a b d e : Term} (h : Trusted shared (.pair i a d) (.pair j b e)) :
    Trusted shared a b ∧ Trusted shared d e := by
  have hcar : ∀ {k : Nat} {c f c' : Term}, c' ∈ c.subterms → c' ∈ (Term.pair k c f).subterms := fun h =>
    List.mem_cons_of_mem _ (List.mem_append_left _ h)
  have hcdr : ∀ {k : Nat} {c f f' : Term}, f' ∈ f.subterms → f' ∈ (Term.pair k c f).subterms := fun h =>
    List.mem_cons_of_mem _ (List.mem_append_right _ h)
  constructor
  · exact fun s' hs t' ht => h s' (hcar hs) t' (hcar ht)
  · exact fun s' hs t' ht => h s' (hcdr hs) t' (hcdr ht)

/-- A round finds two terms to be different trees, or the same one, or it puts the parts of two pairs in their place. -/
theorem parts?_cases (h : Trusted shared s t) :
    (parts? shared s t = none ∧ ¬s.SameTree t) ∨ (parts? shared s t = some [] ∧ s.SameTree t) ∨
      ∃ i j a b d e, s = .pair i a d ∧ t = .pair j b e ∧ parts? shared s t = some [(a, b), (d, e)] := by
  have hshared := h s s.mem_subterms_self t t.mem_subterms_self
  cases s <;> cases t
  case nil.nil => exact .inr (.inl ⟨rfl, .nil⟩)
  case atom.atom i a j b =>
    by_cases hab : a = b
    · subst hab
      exact .inr (.inl ⟨by simp [parts?], .atom i j a⟩)
    · -- atoms of different values are two objects
      have hne : ¬(Term.atom i a).SameTree (.atom j b) := by
        rintro ⟨⟩
        exact hab rfl
      have hnot : shared (.atom i a) (.atom j b) = false := by
        rw [← Bool.not_eq_true]
        exact fun hs => hne (hshared hs)
      exact .inl ⟨by simp [parts?, hab, hnot], hne⟩
  case var.var x y =>
    by_cases hxy : x = y
    · subst hxy
      exact .inr (.inl ⟨by simp [parts?], .var x⟩)
    · refine .inl ⟨by simp [parts?, hxy], ?_⟩
      rintro ⟨⟩
      exact hxy rfl
  case pair.pair i a d j b e =>
    by_cases hs : shared (.pair i a d) (.pair j b e) = true
    · exact .inr (.inl ⟨by simp [parts?, hs], hshared hs⟩)
    · exact .inr (.inr ⟨i, j, a, b, d, e, rfl, rfl, by simp [parts?, hs]⟩)
  all_goals exact .inl ⟨rfl, nofun⟩

/-! ### Whole comparisons -/

/-- The number of objects on the left sides. -/
def weight : List (Term × Term) → Nat
  | [] => 0
  | p :: rest => p.1.nodes + weight rest

/-- A comparison comes to an end within as many rounds as there are objects on the left sides.  It says whether the two
sides of every pair are the same tree. -/
theorem compare?_eq {n : Nat} {pending : List (Term × Term)} (hn : weight pending ≤ n)
    (h : ∀ p ∈ pending, Trusted shared p.1 p.2) :
    compare? shared n pending = some (pending.all fun p => p.1.same p.2) := by
  induction n generalizing pending with
  | zero =>
    cases pending with
    | nil => rfl
    | cons p rest =>
      have hpos := p.1.nodes_pos
      simp only [weight] at hn
      omega
  | succ n ih =>
    cases pending with
    | nil => rfl
    | cons p rest =>
      obtain ⟨s, t⟩ := p
      obtain ⟨hst, hrest⟩ := List.forall_mem_cons.1 h
      have hpos := s.nodes_pos
      simp only [weight] at hn
      rw [compare?, List.all_cons]
      rcases parts?_cases hst with ⟨hparts, hne⟩ | ⟨hparts, heq⟩ | ⟨i, j, a, b, d, e, rfl, rfl, hparts⟩
      · have hsame : s.same t = false := by
          rw [← Bool.not_eq_true, same_iff_sameTree]
          exact hne
        rw [hparts, hsame, Bool.false_and]
      · rw [hparts, same_iff_sameTree.2 heq, Bool.true_and]
        exact ih (by rw [List.nil_append]; omega) hrest
      · -- the parts have one object less than the pair
        obtain ⟨hcar, hcdr⟩ := hst.of_pair
        have hsame : (pair i a d).same (pair j b e) = (a.same b && d.same e) := by
          rw [Bool.eq_iff_iff, Bool.and_eq_true]
          exact same_pair
        have hall : ∀ p ∈ [(a, b), (d, e)] ++ rest, Trusted shared p.1 p.2 :=
          List.forall_mem_cons.2 ⟨hcar, List.forall_mem_cons.2 ⟨hcdr, hrest⟩⟩
        rw [hparts, hsame, Bool.and_assoc]
        refine ih ?_ hall
        simp only [nodes] at hn
        simp only [weight, List.cons_append, List.nil_append]
        omega

end Term

/-! ### Main statement -/

/-- Comparing two terms says whether they are the same tree.  Whatever the comparison is told to be one object, as long
as it has the same contents, it comes to an end with this answer, within as many rounds as the left term has objects.
To be the same tree is an equivalence of terms, and pairs are the same tree if their parts are. -/
theorem same_decides_sameTree (a b : Term) :
    (a.same b = true ↔ a.SameTree b) ∧
    (∀ shared n, Term.Trusted shared a b → a.nodes ≤ n → Term.compare? shared n [(a, b)] = some (a.same b)) ∧
    (Equivalence fun s t : Term => s.same t = true) ∧
    ∀ i j d e, (Term.pair i a d).same (.pair j b e) = true ↔ a.same b = true ∧ d.same e = true := by
  refine ⟨Term.same_iff_sameTree, fun shared n h hn => ?_, Term.equivalence_same, fun i j d e => Term.same_pair⟩
  have hpending : ∀ p ∈ [(a, b)], Term.Trusted shared p.1 p.2 := List.forall_mem_singleton.2 h
  rw [Term.compare?_eq (by simpa [Term.weight] using hn) hpending]
  simp

/-- The pairs with one serial number are one object. -/
private def sameSerial : Term → Term → Bool
  | .pair i _ _, .pair j _ _ => i == j
  | _, _ => false

/-- The lists `((x) x)` and `((x) x)` with one object for the first item are compared without looking into it. -/
theorem same_decides_sameTree_shared :
    Term.Trusted sameSerial (.pair 1 (.pair 0 (.var ⟨0, "x"⟩) .nil) (.pair 2 (.var ⟨0, "x"⟩) .nil))
        (.pair 3 (.pair 0 (.var ⟨0, "x"⟩) .nil) (.pair 4 (.var ⟨0, "x"⟩) .nil)) ∧
      Term.compare? sameSerial 7 [(.pair 1 (.pair 0 (.var ⟨0, "x"⟩) .nil) (.pair 2 (.var ⟨0, "x"⟩) .nil),
        .pair 3 (.pair 0 (.var ⟨0, "x"⟩) .nil) (.pair 4 (.var ⟨0, "x"⟩) .nil))] = some true := by
  have h : Term.Trusted sameSerial (.pair 1 (.pair 0 (.var ⟨0, "x"⟩) .nil) (.pair 2 (.var ⟨0, "x"⟩) .nil))
      (.pair 3 (.pair 0 (.var ⟨0, "x"⟩) .nil) (.pair 4 (.var ⟨0, "x"⟩) .nil)) := by
    have hx : (Term.pair 0 (.var ⟨0, "x"⟩) .nil).SameTree (.pair 0 (.var ⟨0, "x"⟩) .nil) := .pair (.var _) .nil
    simp [Term.Trusted, Term.subterms, sameSerial, hx]
  refine ⟨h, ?_⟩
  obtain ⟨hsame, hcompare, -⟩ := same_decides_sameTree
    (.pair 1 (.pair 0 (.var ⟨0, "x"⟩) .nil) (.pair 2 (.var ⟨0, "x"⟩) .nil))
    (.pair 3 (.pair 0 (.var ⟨0, "x"⟩) .nil) (.pair 4 (.var ⟨0, "x"⟩) .nil))
  rw [hcompare sameSerial 7 h (by simp [Term.nodes]), hsame.2]
  exact .pair (.pair (.var _) .nil) (.pair (.var _) .nil)

end RelLogic
