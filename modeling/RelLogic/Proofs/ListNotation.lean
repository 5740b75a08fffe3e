import RelLogic.Proofs.SameTree
import RelLogic.Template

/-!
# What list templates stand for

The documentation of list templates has one rule for groups: a group in parentheses is a list inside the list, in any
position (`Template.Reads false`).  A template that is accepted is read by this rule but for one position: directly
before a semicolon a group is an operand (`Template.Reads true`), so that two items in parentheses are a pair there and
a single one is itself.  Hence it has the documented reading if and only if no group but the empty one stands directly
before a semicolon (`Template.PlainTails`).

The reading tells which terms are made: one template makes the same tree of the same terms every time
(`Template.sameOrNone_fill?`), and two templates make different trees of some atoms (`Template.exists_fill?_ne`).
-/

namespace RelLogic

namespace Template

/-! ### Readings -/

/-- Pieces that are items with commas between them, and possibly a tail after a semicolon, stand for the list of the
items that ends in the tail, or else in the empty list.  A group is a list inside the list.  The flag tells whether a
group directly before the semicolon is an operand instead. -/
inductive Reads (operands : Bool) : List Piece → Template → Prop
  | empty : Reads operands [] .nil
  | lastItem (n : Nat) : Reads operands [.item n] (.pair (.item n) .nil)
  | lastGroup {ps : List Piece} {l : Template} (inner : Reads operands ps l) :
    Reads operands [.group ps] (.pair l .nil)
  | tailItem (m n : Nat) : Reads operands [.item m, .semicolon, .item n] (.pair (.item m) (.item n))
  | tailGroup {ps : List Piece} {l : Template} (n : Nat) (hlist : operands = false) (inner : Reads operands ps l) :
    Reads operands [.group ps, .semicolon, .item n] (.pair l (.item n))
  | tailOperand {ps : List Piece} {a : Template} (n : Nat) (hoperand : operands = true)
    (inner : Operand.ofPiece? (.group ps) = some (.term a)) :
    Reads operands [.group ps, .semicolon, .item n] (.pair a (.item n))
  | item {q : Piece} {qs : List Piece} {d : Template} (n : Nat) (others : Reads operands (q :: qs) d) :
    Reads operands (.item n :: .comma :: q :: qs) (.pair (.item n) d)
  | group {ps qs : List Piece} {q : Piece} {l d : Template} (inner : Reads operands ps l)
    (others : Reads operands (q :: qs) d) :
    Reads operands (.group ps :: .comma :: q :: qs) (.pair l d)

mutual

/-- The same for the pieces inside a group. -/
def PlainTail : Piece → Prop
  | .group ps => PlainTails ps
  | _ => True

/-- No group stands directly before a semicolon, unless there is nothing in it. -/
def PlainTails : List Piece → Prop
  | [.group ps, .semicolon, _] => ps = []
  | p :: ps => PlainTail p ∧ PlainTails ps
  | [] => True

end

mutual

/-- The same for the pieces inside a group. -/
def Unsplit : Piece → Prop
  | .semicolon => False
  | .group ps => NoSemicolon ps
  | _ => True

/-- There is no semicolon among the pieces, nor inside a group. -/
def NoSemicolon : List Piece → Prop
  | p :: ps => Unsplit p ∧ NoSemicolon ps
  | [] => True

end

@[simp] theorem plainTails_item (n : Nat) (ps : List Piece) : PlainTails (.item n :: ps) ↔ PlainTails ps := by
  simp [PlainTails, PlainTail]

@[simp] theorem plainTails_comma (ps : List Piece) : PlainTails (.comma :: ps) ↔ PlainTails ps := by
  simp [PlainTails, PlainTail]

@[simp] theorem plainTails_lastGroup (ps : List Piece) : PlainTails [.group ps] ↔ PlainTails ps := by
  simp [PlainTails, PlainTail]

@[simp] theorem plainTails_group (ps qs : List Piece) :
    PlainTails (.group ps :: .comma :: qs) ↔ PlainTails ps ∧ PlainTails qs := by
  simp [PlainTails, PlainTail]

/-! ### The rules of templates -/

@[simp] theorem ofPieces?_nil : ofPieces? [] = some .nil := by
  rw [ofPieces?]

@[simp] theorem ofPieces?_lastItem (n : Nat) : ofPieces? [.item n] = some (.pair (.item n) .nil) := by
  simp [ofPieces?, Operand.ofPiece?, Operand.term?]

theorem ofPieces?_lastGroup (ps : List Piece) : ofPieces? [.group ps] = (ofPieces? ps).map (.pair · .nil) := by
  rw [ofPieces?]
  cases ofPieces? ps <;> rfl

theorem ofPieces?_tail (p : Piece) (n : Nat) :
    ofPieces? [p, .semicolon, .item n] = ((Operand.ofPiece? p).bind Operand.term?).map (.pair · (.item n)) := by
  rw [ofPieces?]
  cases Operand.ofPiece? p with
  | none => rfl
  | some o => cases o <;> rfl

theorem ofPieces?_item (n : Nat) (qs : List Piece) :
    ofPieces? (.item n :: .comma :: qs) = (ofPieces? qs).map (.pair (.item n)) := by
  simp only [ofPieces?, Operand.ofPiece?]
  cases ofPieces? qs <;> rfl

theorem ofPieces?_group (ps qs : List Piece) :
    ofPieces? (.group ps :: .comma :: qs) =
      (Operand.ofPieces? ps).bind fun _ => (ofPieces? ps).bind fun l => (ofPieces? qs).map (.pair l) := by
  rw [ofPieces?]
  cases Operand.ofPieces? ps <;> cases ofPieces? ps <;> cases ofPieces? qs <;> rfl

variable {ps : List Piece} {l t r : Template}

/-- Which rule reads a piece depends only on whether a semicolon follows it. -/
theorem Reads.of_accepted (h : Reads false ps r) (ht : ofPieces? ps = some t) : Reads true ps t := by
  induction h generalizing t with
  | empty =>
    obtain rfl : .nil = t := by simpa using ht
    exact .empty
  | lastItem n =>
    obtain rfl : .pair (.item n) .nil = t := by simpa using ht
    exact .lastItem n
  | lastGroup _ ih =>
    rw [ofPieces?_lastGroup, Option.map_eq_some_iff] at ht
    obtain ⟨l, hl, rfl⟩ := ht
    exact .lastGroup (ih hl)
  | tailItem m n =>
    obtain rfl : .pair (.item m) (.item n) = t := by simpa [ofPieces?_tail, Operand.ofPiece?, Operand.term?] using ht
    exact .tailItem m n
  | tailGroup n _ _ _ =>
    rw [ofPieces?_tail, Option.map_eq_some_iff] at ht
    obtain ⟨a, ha, rfl⟩ := ht
    obtain ⟨o, ho, hoa⟩ := Option.bind_eq_some_iff.1 ha
    cases o with
    | group => contradiction
    | term a' =>
      obtain rfl := Option.some.inj hoa
      exact .tailOperand n rfl ho
  | tailOperand _ h _ => contradiction
  | item n _ ih =>
    rw [ofPieces?_item, Option.map_eq_some_iff] at ht
    obtain ⟨d, hd, rfl⟩ := ht
    exact .item n (ih hd)
  | group _ _ ihinner ihothers =>
    rw [ofPieces?_group] at ht
    obtain ⟨_, -, ht⟩ := Option.bind_eq_some_iff.1 ht
    obtain ⟨l, hl, ht⟩ := Option.bind_eq_some_iff.1 ht
    obtain ⟨d, hd, rfl⟩ := Option.map_eq_some_iff.1 ht
    exact .group (ihinner hl) (ihothers hd)

/-! ### Operands and lists -/

/-- The number of pairs and places in a template. -/
def size : Template → Nat
  | .pair a d => a.size + d.size + 1
  | _ => 1

end Template

namespace Operand

/-- The size of the term that an operand stands for. -/
def size : Operand → Nat
  | .term t => t.size
  | .group => 0

@[simp] theorem size_term (t : Template) : (term t).size = t.size := rfl

@[simp] theorem size_group : group.size = 0 := rfl

/-- The size of the list that has the operands as its items. -/
def listSize : List Operand → Nat
  | [] => 1
  | o :: os => o.size + listSize os + 1

theorem size_ofGroup_le (ps : List Piece) (os : List Operand) : (ofGroup ps os).size ≤ listSize os := by
  unfold ofGroup
  split
  · simp [listSize, Template.size]
  · split <;> simp only [listSize, size_group] <;> omega
  · simp only [listSize, Template.size, size_term]
    omega
  · simp

theorem size_ofGroup_lt (ps : List Piece) {os : List Operand} (hos : os ≠ []) :
    (ofGroup ps os).size < listSize os := by
  unfold ofGroup
  split
  · contradiction
  · split <;> simp only [listSize, size_group] <;> omega
  · simp only [listSize, Template.size, size_term]
    omega
  · cases os with
    | nil => contradiction
    | cons o os => simp [listSize]

variable {ps : List Piece} {os : List Operand}

@[simp] theorem ofPiece?_item (n : Nat) : ofPiece? (.item n) = some (.term (.item n)) := by
  rw [ofPiece?]

theorem ofPiece?_group (ps : List Piece) : ofPiece? (.group ps) = (ofPieces? ps).map (ofGroup ps) := by
  rw [ofPiece?]
  cases ofPieces? ps <;> rfl

@[simp] theorem ofPieces?_nil : ofPieces? [] = some [] := by
  rw [ofPieces?]

theorem ofPieces?_last (p : Piece) : ofPieces? [p] = (ofPiece? p).map fun o => [o] := by
  rw [ofPieces?]
  cases ofPiece? p <;> rfl

theorem ofPieces?_comma (p : Piece) (ps : List Piece) :
    ofPieces? (p :: .comma :: ps) = (ofPiece? p).bind fun o => (ofPieces? ps).map (o :: ·) := by
  rw [ofPieces?]
  cases ofPiece? p <;> cases ofPieces? ps <;> rfl

theorem ofPieces?_semicolon (p : Piece) (ps : List Piece) : ofPieces? (p :: .semicolon :: ps) = none := by
  simp [ofPieces?]

theorem ne_nil_of_ofPieces? (h : ofPieces? ps = some os) (hps : ps ≠ []) : os ≠ [] := by
  rintro rfl
  match ps with
  | [] => contradiction
  | [p] =>
    rw [ofPieces?_last, Option.map_eq_some_iff] at h
    obtain ⟨o, -, ho⟩ := h
    contradiction
  | p :: .comma :: ps =>
    rw [ofPieces?_comma] at h
    obtain ⟨o, -, h⟩ := Option.bind_eq_some_iff.1 h
    obtain ⟨os, -, hos⟩ := Option.map_eq_some_iff.1 h
    contradiction
  | p :: .item n :: ps | p :: .semicolon :: ps | p :: .group qs :: ps => simp [ofPieces?] at h

end Operand

namespace Template

variable {ps : List Piece} {a l t r : Template} {os : List Operand}

/-- The operands of a group need no more room than the list that the group stands for. -/
theorem Reads.listSize_le (h : Reads false ps l) (hos : Operand.ofPieces? ps = some os) :
    Operand.listSize os ≤ l.size := by
  induction h generalizing os with
  | empty =>
    obtain rfl : [] = os := by simpa using hos
    exact Nat.le_refl 1
  | lastItem n =>
    obtain rfl : [.term (.item n)] = os := by simpa [Operand.ofPieces?_last] using hos
    exact Nat.le_refl 3
  | @lastGroup ps l _ ih =>
    rw [Operand.ofPieces?_last, Operand.ofPiece?_group, Option.map_map, Option.map_eq_some_iff] at hos
    obtain ⟨os', hos', rfl⟩ := hos
    have hle := Nat.le_trans (Operand.size_ofGroup_le ps os') (ih hos')
    simp only [Function.comp_apply, Operand.listSize, size]
    omega
  | item n _ ih =>
    rw [Operand.ofPieces?_comma, Operand.ofPiece?_item, Option.bind_some, Option.map_eq_some_iff] at hos
    obtain ⟨os', hos', rfl⟩ := hos
    have hle := ih hos'
    simp only [Operand.listSize, Operand.size_term, size]
    omega
  | @group ps _ _ l _ _ _ ihinner ihothers =>
    rw [Operand.ofPieces?_comma, Operand.ofPiece?_group] at hos
    obtain ⟨o, ho, hos⟩ := Option.bind_eq_some_iff.1 hos
    obtain ⟨inner, hinner, rfl⟩ := Option.map_eq_some_iff.1 ho
    obtain ⟨os', hos', rfl⟩ := Option.map_eq_some_iff.1 hos
    have hle := Nat.le_trans (Operand.size_ofGroup_le ps inner) (ihinner hinner)
    have hle' := ihothers hos'
    simp only [Operand.listSize, size]
    omega
  | tailOperand _ h _ => contradiction
  | _ => simp [Operand.ofPieces?_semicolon] at hos

/-- A group with something in it is smaller as an operand than as a list. -/
theorem Reads.eq_list_iff (h : Reads false ps l) (ha : Operand.ofPiece? (.group ps) = some (.term a)) :
    a = l ↔ ps = [] := by
  rw [Operand.ofPiece?_group, Option.map_eq_some_iff] at ha
  obtain ⟨os, hos, hoperand⟩ := ha
  constructor
  · rintro rfl
    refine Classical.byContradiction fun hps => ?_
    have hlt := Operand.size_ofGroup_lt ps (Operand.ne_nil_of_ofPieces? hos hps)
    have hle := h.listSize_le hos
    rw [hoperand, Operand.size_term] at hlt
    omega
  · rintro rfl
    cases h
    obtain rfl : [] = os := by simpa using hos
    exact (Operand.term.inj hoperand).symm

/-- The two readings of a template agree if and only if the tails are plain. -/
theorem Reads.eq_iff (h : Reads false ps r) (h' : Reads true ps t) : t = r ↔ PlainTails ps := by
  induction h generalizing t with
  | empty =>
    cases h'
    simp [PlainTails]
  | lastItem n =>
    cases h'
    simp [PlainTails, PlainTail]
  | lastGroup _ ih =>
    cases h' with
    | lastGroup inner' => simp [ih inner']
  | tailItem m n =>
    cases h'
    simp [PlainTails, PlainTail]
  | tailGroup n _ inner _ =>
    cases h' with
    | tailGroup _ h _ => contradiction
    | tailOperand _ _ ha => simp [inner.eq_list_iff ha, PlainTails]
  | tailOperand _ h _ => contradiction
  | item n _ ih =>
    cases h' with
    | item _ others' => simp [ih others']
  | group _ _ ihinner ihothers =>
    cases h' with
    | group inner' others' => simp [ihinner inner', ihothers others']

/-! ### Templates without semicolons -/

theorem Reads.exists_operands (h : Reads false ps r) (hps : NoSemicolon ps) :
    ∃ os, Operand.ofPieces? ps = some os := by
  induction h with
  | empty => exact ⟨[], Operand.ofPieces?_nil⟩
  | lastItem n => exact ⟨[.term (.item n)], by simp [Operand.ofPieces?_last]⟩
  | lastGroup _ ih =>
    obtain ⟨os, hos⟩ := ih hps.1
    exact ⟨_, by rw [Operand.ofPieces?_last, Operand.ofPiece?_group, hos]; rfl⟩
  | item n _ ih =>
    obtain ⟨os, hos⟩ := ih hps.2.2
    exact ⟨_, by rw [Operand.ofPieces?_comma, hos]; rfl⟩
  | group _ _ ihinner ihothers =>
    obtain ⟨inner, hinner⟩ := ihinner hps.1
    obtain ⟨os, hos⟩ := ihothers hps.2.2
    exact ⟨_, by rw [Operand.ofPieces?_comma, Operand.ofPiece?_group, hinner, hos]; rfl⟩
  | tailOperand _ h _ => contradiction
  | _ => exact hps.2.1.elim

theorem Reads.ofPieces?_eq (h : Reads false ps r) (hps : NoSemicolon ps) : ofPieces? ps = some r := by
  induction h with
  | empty => exact ofPieces?_nil
  | lastItem n => exact ofPieces?_lastItem n
  | lastGroup _ ih =>
    rw [ofPieces?_lastGroup, ih hps.1]
    rfl
  | item n _ ih =>
    rw [ofPieces?_item, ih hps.2.2]
    rfl
  | group inner _ ihinner ihothers =>
    obtain ⟨os, hos⟩ := inner.exists_operands hps.1
    rw [ofPieces?_group, hos, ihinner hps.1, ihothers hps.2.2]
    rfl
  | tailOperand _ h _ => contradiction
  | _ => exact hps.2.1.elim

/-! ### The terms that are made -/

/-- The tree that a template makes of the given terms, if it asks for no others. -/
def tree? (items : List Term) : Template → Option Term
  | .nil => some .nil
  | .item n => items[n]?.map Term.bare
  | .pair a d => do
    let car ← tree? items a
    let cdr ← tree? items d
    return .pair 0 car cdr

theorem exists_of_tree?_pair {items : List Term} {d : Template} {u : Term} (h : (pair a d).tree? items = some u) :
    ∃ car cdr, a.tree? items = some car ∧ d.tree? items = some cdr ∧ u = .pair 0 car cdr := by
  obtain ⟨car, hcar, h⟩ := Option.bind_eq_some_iff.1 h
  obtain ⟨cdr, hcdr, h⟩ := Option.bind_eq_some_iff.1 h
  exact ⟨car, cdr, hcar, hcdr, (Option.some.inj h).symm⟩

theorem map_bare_fill? (items : List Term) (t : Template) (σ : Supply) :
    (t.fill? items σ).1.map Term.bare = t.tree? items := by
  induction t generalizing σ with
  | nil => rfl
  | item n => rfl
  | pair a d iha ihd =>
    rcases ha : a.fill? items σ with ⟨car?, σ₁⟩
    rcases hd : d.fill? items σ₁ with ⟨cdr?, σ₂⟩
    have hcar : car?.map Term.bare = a.tree? items := by rw [← iha σ, ha]
    have hcdr : cdr?.map Term.bare = d.tree? items := by rw [← ihd σ₁, hd]
    rw [tree?, ← hcar, ← hcdr]
    simp only [fill?, bind, StateT.bind, ha, hd]
    cases car? <;> cases cdr? <;> rfl

theorem sameOrNone_fill? (t : Template) (items : List Term) (σ τ : Supply) :
    Term.SameOrNone (t.fill? items σ).1 (t.fill? items τ).1 := by
  rw [Term.sameOrNone_iff, map_bare_fill?, map_bare_fill?]

/-- How many terms have to be given for the template. -/
def places : Template → Nat
  | .nil => 0
  | .item n => n + 1
  | .pair a d => max a.places d.places

theorem exists_tree? (t : Template) {items : List Term} (h : t.places ≤ items.length) :
    ∃ u, t.tree? items = some u := by
  induction t with
  | nil => exact ⟨_, rfl⟩
  | item n => exact ⟨_, by rw [tree?, List.getElem?_eq_getElem h, Option.map_some]⟩
  | pair a d iha ihd =>
    obtain ⟨ha, hd⟩ := Nat.max_le.1 h
    obtain ⟨car, hcar⟩ := iha ha
    obtain ⟨cdr, hcdr⟩ := ihd hd
    exact ⟨.pair 0 car cdr, by rw [tree?, hcar, hcdr]; rfl⟩

/-- Different atoms, as many as the number says: texts of different lengths. -/
def atoms (n : Nat) : List Term :=
  (List.range n).map fun k => .atom 0 (.text (String.ofList (List.replicate k 'a')))

theorem exists_tree?_atoms (t : Template) {n : Nat} (h : t.places ≤ n) : ∃ u, t.tree? (atoms n) = some u := by
  apply t.exists_tree?
  simpa [atoms] using h

theorem eq_of_tree?_atoms_item {n k : Nat} {u : Term} (h : (item k).tree? (atoms n) = some u) :
    u = .atom 0 (.text (String.ofList (List.replicate k 'a'))) := by
  by_cases hk : k < n
  · simpa [tree?, atoms, List.getElem?_range hk, Term.bare, eq_comm] using h
  · have hnone : (List.range n)[k]? = none := by simpa using hk
    simp [tree?, atoms, hnone] at h

/-- What a template makes of different atoms tells what the template was. -/
theorem eq_of_tree?_atoms {n : Nat} {u : Term} (ht : t.tree? (atoms n) = some u) (hr : r.tree? (atoms n) = some u) :
    t = r := by
  induction t generalizing r u with
  | nil =>
    obtain rfl : .nil = u := Option.some.inj ht
    cases r with
    | nil => rfl
    | item m => cases eq_of_tree?_atoms_item hr
    | pair b e =>
      obtain ⟨_, _, -, -, h⟩ := exists_of_tree?_pair hr
      contradiction
  | item k =>
    obtain rfl := eq_of_tree?_atoms_item ht
    cases r with
    | nil => cases hr
    | item m =>
      have htexts := Atom.text.inj (Term.atom.inj (eq_of_tree?_atoms_item hr)).2
      obtain rfl : k = m := by simpa using congrArg List.length (String.ofList_injective htexts)
      rfl
    | pair b e =>
      obtain ⟨_, _, -, -, h⟩ := exists_of_tree?_pair hr
      contradiction
  | pair a d iha ihd =>
    obtain ⟨car, cdr, ha, hd, rfl⟩ := exists_of_tree?_pair ht
    cases r with
    | nil => cases hr
    | item m => cases eq_of_tree?_atoms_item hr
    | pair b e =>
      obtain ⟨car', cdr', hb, he, h⟩ := exists_of_tree?_pair hr
      obtain ⟨-, rfl, rfl⟩ := Term.pair.inj h
      rw [iha ha hb, ihd hd he]

/-- Different templates make different trees of some atoms. -/
theorem exists_fill?_ne (h : t ≠ r) :
    ∃ n, ∀ σ τ, ∃ u v, (t.fill? (atoms n) σ).1 = some u ∧ (r.fill? (atoms n) τ).1 = some v ∧ u.same v = false := by
  refine ⟨max t.places r.places, fun σ τ => ?_⟩
  obtain ⟨tree, htree⟩ := t.exists_tree?_atoms (Nat.le_max_left t.places r.places)
  obtain ⟨tree', htree'⟩ := r.exists_tree?_atoms (Nat.le_max_right t.places r.places)
  obtain ⟨u, hu, hut⟩ := Option.map_eq_some_iff.1 ((map_bare_fill? _ t σ).trans htree)
  obtain ⟨v, hv, hvt⟩ := Option.map_eq_some_iff.1 ((map_bare_fill? _ r τ).trans htree')
  refine ⟨u, v, hu, hv, Bool.eq_false_iff.2 fun hsame => h ?_⟩
  rw [Term.same_iff, hut, hvt] at hsame
  exact eq_of_tree?_atoms htree (hsame ▸ htree')

end Template

/-! ### Main statement -/

/-- A template for which the documentation has a reading, and which is accepted, is read by the documented rule, except
that a group directly before a semicolon is an operand; so it is read as documented if and only if no group but the
empty one stands there.  Then it makes the documented tree of any given terms, and otherwise there are atoms of which it
makes another tree.  Without semicolons it is accepted. -/
theorem template_reads_documented_iff {ps : List Piece} {r : Template} (h : Template.Reads false ps r) :
    (∀ t, Template.ofPieces? ps = some t →
      Template.Reads true ps t ∧ (t = r ↔ Template.PlainTails ps) ∧
      (Template.PlainTails ps → ∀ items σ τ, Term.SameOrNone (t.fill? items σ).1 (r.fill? items τ).1) ∧
      (¬Template.PlainTails ps → ∃ n, ∀ σ τ, ∃ u v, (t.fill? (Template.atoms n) σ).1 = some u ∧
        (r.fill? (Template.atoms n) τ).1 = some v ∧ u.same v = false)) ∧
    (Template.NoSemicolon ps → Template.ofPieces? ps = some r) := by
  refine ⟨fun t ht => ?_, h.ofPieces?_eq⟩
  have ht' := h.of_accepted ht
  have heq := h.eq_iff ht'
  refine ⟨ht', heq, fun hplain items σ τ => ?_, fun hplain => ?_⟩
  · rw [heq.2 hplain]
    exact r.sameOrNone_fill? items σ τ
  · exact Template.exists_fill?_ne fun e => hplain (heq.1 e)

/-- The template `((0,1),2),3;4`. -/
private def nested : List Piece :=
  [.group [.group [.item 0, .comma, .item 1], .comma, .item 2], .comma, .item 3, .semicolon, .item 4]

/-- The list that begins with the list of `(0 1)` and `2`, goes on with `3` and ends in `4`. -/
private def nestedList : Template :=
  .pair (.pair (.pair (.item 0) (.pair (.item 1) .nil)) (.pair (.item 2) .nil)) (.pair (.item 3) (.item 4))

/-- The groups of `((0,1),2),3;4` are lists inside the list. -/
theorem template_reads_documented_nested :
    Piece.ofString? "((0,1),2),3;4" = some nested ∧ Template.Reads false nested nestedList ∧
      Template.ofPieces? nested = some nestedList ∧ Template.PlainTails nested := by
  have h : Template.Reads false nested nestedList :=
    .group (.group (.item 0 (.lastItem 1)) (.lastItem 2)) (.tailItem 3 4)
  have ht : Template.ofPieces? nested = some nestedList := by
    simp [nested, nestedList, Template.ofPieces?_group, Template.ofPieces?_item, Template.ofPieces?_tail,
      Operand.ofPieces?_comma, Operand.ofPieces?_last, Operand.ofPiece?_group, Operand.term?]
  obtain ⟨-, hplain, -⟩ := (template_reads_documented_iff h).1 nestedList ht
  exact ⟨rfl, h, ht, hplain.1 rfl⟩

/-- The template `(0,1);2`. -/
private def tupled : List Piece :=
  [.group [.item 0, .comma, .item 1], .semicolon, .item 2]

/-- The documentation reads the group of `(0,1);2` as a list, but it is a pair. -/
theorem template_reads_tuple :
    Piece.ofString? "(0,1);2" = some tupled ∧
      Template.Reads false tupled (.pair (.pair (.item 0) (.pair (.item 1) .nil)) (.item 2)) ∧
      Template.ofPieces? tupled = some (.pair (.pair (.item 0) (.item 1)) (.item 2)) := by
  refine ⟨rfl, .tailGroup 2 rfl (.item 0 (.lastItem 1)), ?_⟩
  simp [tupled, Template.ofPieces?_tail, Operand.ofPieces?_comma, Operand.ofPieces?_last, Operand.ofPiece?_group,
    Operand.ofGroup, Operand.term?]

end RelLogic
