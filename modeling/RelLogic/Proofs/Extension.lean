import RelLogic.Proofs.Acyclic

/-!
# What one binding does to all walks

A new binding of a variable that had none leaves every chain of bindings as it was, and the chains that ended at the
variable go on with the term that it is bound to (`Subst.Leads.extend`).  So a walk that came to the variable comes to
where that term is walked, and every other walk ends where it did (`Subst.walk?_extend`) - unless the term is walked to
the variable itself, which makes a ring.  As all walks still end, there is no new ring
(`Subst.RingFree.extend_of_walk?`).
-/

namespace RelLogic

namespace Subst

variable {s : Subst} {x : Var} {t u w : Term}

theorem ne_of_get?_eq_none {y : Var} (hx : s.get? x = none) (hy : s.get? y = some u) : y ≠ x := by
  rintro rfl
  rw [hx] at hy
  contradiction

theorem Leads.extend {n : Nat} (h : s.Leads w n u) (hx : s.get? x = none) : (s.extend x t).Leads w n u := by
  induction h with
  | here w => exact .here w
  | step hy _ ih => exact .step (by rw [get?_extend, if_neg (ne_of_get?_eq_none hx hy), hy]) ih

theorem Ends.extend (h : s.Ends u) (hu : u ≠ .var x) : (s.extend x t).Ends u := by
  rintro y rfl
  have hne : y ≠ x := fun e => hu (congrArg Term.var e)
  rw [get?_extend, if_neg hne, h y rfl]

/-- A walk that does not end at the new variable ends where it did. -/
theorem walk?_extend_of_ne (hx : s.get? x = none) (hw : s.walk? w = some u) (hu : u ≠ .var x) :
    (s.extend x t).walk? w = some u := by
  obtain ⟨⟨n, hn⟩, hends⟩ := walk?_eq_some_iff.1 hw
  exact walk?_eq_some_iff.2 ⟨⟨n, hn.extend hx⟩, hends.extend hu⟩

/-- A walk that ended at the new variable goes on to where the term is walked. -/
theorem walk?_extend_of_eq (hx : s.get? x = none) (hw : s.walk? w = some (.var x)) (ht : s.walk? t = some u)
    (hu : u ≠ .var x) : (s.extend x t).walk? w = some u := by
  obtain ⟨⟨n, hn⟩, -⟩ := walk?_eq_some_iff.1 hw
  obtain ⟨⟨m, hm⟩, hends⟩ := walk?_eq_some_iff.1 ht
  have hbinding : (s.extend x t).get? x = some t := by rw [get?_extend, if_pos rfl]
  exact walk?_eq_some_iff.2 ⟨(hn.extend hx).trans (.step hbinding (hm.extend hx)), hends.extend hu⟩

theorem walk?_extend (hs : s.RingFree) (hx : s.get? x = none) (ht : s.walk? t ≠ some (.var x)) (w : Term) :
    (s.extend x t).walk? w = if s.walk? w = some (.var x) then s.walk? t else s.walk? w := by
  obtain ⟨u, hu⟩ := exists_walk? hs t
  obtain ⟨v, hv⟩ := exists_walk? hs w
  split
  · rename_i hw
    rw [hu, walk?_extend_of_eq hx hw hu fun e => ht (e ▸ hu)]
  · rename_i hw
    rw [hv, walk?_extend_of_ne hx hv fun e => hw (e ▸ hv)]

/-- No ring comes from a binding to a term that is not walked to the variable. -/
theorem RingFree.extend_of_walk? (hs : s.RingFree) (hx : s.get? x = none) (ht : s.walk? t ≠ some (.var x)) :
    (s.extend x t).RingFree := by
  refine ringFree_of_walks fun w => ?_
  rw [walk?_extend hs hx ht]
  split
  · exact exists_walk? hs t
  · exact exists_walk? hs w

end Subst

/-! ### Main statement -/

/-- However a substitution was made, let no variable be bound twice and let no variables be bound in a ring.  Then both
remain so when a variable without a binding is bound to a term that is not walked to it; where a walk led to the
variable, it now leads to where the term is walked, and every other walk leads to where it led.  To look a variable up
is to walk from it, and every walk follows at most as many bindings as are counted until there is none to follow. -/
theorem extend_redirects_walks {s : Subst} (hmade : s.Made) (hnodup : s.bound.Nodup) (hring : s.RingFree) :
    (∀ x t, s.get? x = none → s.walk? t ≠ some (.var x) →
      (s.extend x t).bound.Nodup ∧ (s.extend x t).RingFree ∧
      ∀ w, (s.extend x t).walk? w = if s.walk? w = some (.var x) then s.walk? t else s.walk? w) ∧
    (∀ y, s.lookup? y = s.walk? (.var y)) ∧
    ∀ w, ∃ n u, n ≤ s.size ∧ s.Leads w n u ∧ s.Ends u ∧ s.walk? w = some u := by
  refine ⟨fun x t hx ht => ⟨?_, ?_, ?_⟩, fun y => ?_, fun w => ?_⟩
  · rw [Subst.bound_extend, List.nodup_cons]
    exact ⟨Subst.get?_eq_none_iff.1 hx, hnodup⟩
  · exact hring.extend_of_walk? hx ht
  · exact Subst.walk?_extend hring hx ht
  · exact Subst.lookup?_eq_walk? hring y
  · obtain ⟨u, hu⟩ := Subst.exists_walk? hring w
    obtain ⟨⟨n, hn⟩, hends⟩ := Subst.walk?_eq_some_iff.1 hu
    refine ⟨n, u, ?_, hn, hends, hu⟩
    rw [hmade.size_eq]
    exact hn.le_length hring

/-- The substitution in which `v` is bound to `x`, and then `w` to `v`. -/
private def twoAliases : Subst :=
  ⟨[(⟨1, "w"⟩, .var ⟨0, "v"⟩), (⟨0, "v"⟩, .var ⟨2, "x"⟩)], 2⟩

/-- A binding of `x` redirects the walk from `w`, which then follows all three bindings. -/
theorem extend_redirects_walks_aliases :
    twoAliases.Made ∧ twoAliases.bound.Nodup ∧ twoAliases.RingFree ∧
      twoAliases.walk? (.var ⟨1, "w"⟩) = some (.var ⟨2, "x"⟩) ∧
      (twoAliases.extend ⟨2, "x"⟩ .nil).walk? (.var ⟨1, "w"⟩) = some .nil ∧
      (twoAliases.extend ⟨2, "x"⟩ .nil).Leads (.var ⟨1, "w"⟩) 3 .nil := by
  -- one binding after the other, from the empty substitution
  have hmade := Subst.Made.empty
  obtain ⟨hextend, -, -⟩ := extend_redirects_walks hmade List.nodup_nil Subst.acyclic_empty.ringFree
  obtain ⟨hv, hringv, -⟩ := hextend ⟨0, "v"⟩ (.var ⟨2, "x"⟩) rfl (by decide)
  have hmadev := hmade.extend ⟨0, "v"⟩ (.var ⟨2, "x"⟩)
  obtain ⟨hextend, -, -⟩ := extend_redirects_walks hmadev hv hringv
  obtain ⟨hw, hringw, -⟩ := hextend ⟨1, "w"⟩ (.var ⟨0, "v"⟩) rfl (by decide)
  have hmadew := hmadev.extend ⟨1, "w"⟩ (.var ⟨0, "v"⟩)
  obtain ⟨hextend, -, -⟩ := extend_redirects_walks hmadew hw hringw
  obtain ⟨-, -, hwalk⟩ := hextend ⟨2, "x"⟩ .nil rfl (by decide)
  exact ⟨hmadew, hw, hringw, rfl, hwalk (.var ⟨1, "w"⟩), .step rfl (.step rfl (.step rfl (.here _)))⟩

end RelLogic
