import Mathlib
import RelLogic.Proofs.Formatting
import RelLogic.Proofs.Quoting
import RelLogic.Proofs.Region
import RelLogic.Term.Same

/-!
# Terms and their written forms

The written form of a term can be read in one way only (`Term.readBack`).  Each form is told by its first character: it
is a parenthesis, a quote, or the beginning of a word.  A word ends before the next blank or closing parenthesis, a
quoted text ends by itself, and a list ends at its own closing parenthesis, since the texts of its items take up all
others.  For this, variables have to be written like no number and no truth value, and different ones in different
ways.
-/

namespace RelLogic

open Text

namespace Term

/-! ### Characters of the written form -/

/-- The characters of the written form. -/
def text (t : Term) : List Char :=
  t.render.toList

/-- The characters that follow the first item of a list. -/
def restText (t : Term) : List Char :=
  (writeRest "" t).toList

theorem text_nil : text nil = ['(', ')'] := by
  simp [text, render, write]

theorem text_pair (i : Nat) (a d : Term) : text (pair i a d) = '(' :: (text a ++ restText d ++ [')']) := by
  simp [text, restText, render_pair, openRender_eq_append]

theorem restText_nil : restText nil = [] := by
  simp [restText, writeRest]

theorem restText_pair (i : Nat) (a d : Term) : restText (pair i a d) = ' ' :: (text a ++ restText d) := by
  simp [text, restText, writeRest_pair, openRender_eq_append]

theorem restText_of_leaf {t : Term} (hpair : t.isPair = false) (hnil : t.isNil = false) :
    restText t = ' ' :: '.' :: ' ' :: text t := by
  cases t with
  | nil => cases hnil
  | pair => cases hpair
  | _ => simp [restText, text, writeRest, render, write]

end Term

/-! ### Words -/

/-- The characters that end a word. -/
def IsBreak (c : Char) : Prop :=
  c = ' ' ∨ c = ')'

/-- The characters with which a word begins: lists, quoted texts and the ends of lists begin with others. -/
def IsInitial (c : Char) : Prop :=
  c ≠ '(' ∧ ¬IsQuote c ∧ c ≠ '.' ∧ ¬IsBreak c

/-- The characters with which a number begins. -/
def IsNumeral (c : Char) : Prop :=
  c = '-' ∨ c.isDigit = true

/-- A word begins with the first character of one and has no character that ends it. -/
def IsWord (w : String) : Prop :=
  (∃ c ∈ w.toList.head?, IsInitial c) ∧ ∀ c ∈ w.toList, ¬IsBreak c

/-- The label is a word that is written like no number and no truth value.  All identifiers but `true` and `false` are
such labels. -/
def IsName (label : String) : Prop :=
  IsWord label ∧ (∀ c ∈ label.toList.head?, ¬IsNumeral c) ∧ label ≠ "true" ∧ label ≠ "false"

instance : DecidablePred IsBreak :=
  fun _ => inferInstanceAs (Decidable (_ ∨ _))

instance : DecidablePred IsQuote :=
  fun _ => inferInstanceAs (Decidable (_ ∨ _))

instance : DecidablePred IsInitial :=
  fun _ => inferInstanceAs (Decidable (_ ∧ _))

instance : DecidablePred IsNumeral :=
  fun _ => inferInstanceAs (Decidable (_ ∨ _))

instance : DecidablePred IsWord :=
  fun _ => inferInstanceAs (Decidable (_ ∧ _))

instance : DecidablePred IsName :=
  fun _ => inferInstanceAs (Decidable (_ ∧ _))

theorem IsNumeral.isInitial {c : Char} (h : IsNumeral c) : IsInitial c := by
  have hne : ∀ d, ¬IsNumeral d → c ≠ d := fun d hd hcd => hd (hcd ▸ h)
  refine ⟨hne _ (by decide), ?_, hne _ (by decide), ?_⟩
  · exact fun hq => hq.elim (hne _ (by decide)) (hne _ (by decide))
  · exact fun hb => hb.elim (hne _ (by decide)) (hne _ (by decide))

theorem isNumeral_of_mem_toString {n : Int} {c : Char} (h : c ∈ (toString n).toList) : IsNumeral c := by
  have hdigits (m : Nat) : ∀ c ∈ Nat.toDigits 10 m, c.isDigit = true := fun c hc =>
    Nat.isDigit_of_mem_toDigits (by decide) (by decide) hc
  rw [Int.toString_eq_repr, Int.repr_eq_if] at h
  split at h
  · rw [Nat.repr_eq_ofList_toDigits, String.toList_ofList] at h
    exact .inr (hdigits _ c h)
  · rw [Nat.repr_eq_ofList_toDigits, String.toList_append, String.toList_ofList] at h
    obtain rfl | h : c = '-' ∨ _ := by simpa using h
    · exact .inl rfl
    · exact .inr (hdigits _ c h)

theorem toList_toString_ne_nil (n : Int) : (toString n).toList ≠ [] := by
  rw [Int.toString_eq_repr, Int.repr_eq_if]
  split
  · simp [Nat.repr_eq_ofList_toDigits, Nat.toDigits_ne_nil]
  · simp

theorem isNumeral_head_toString (n : Int) : ∃ c ∈ (toString n).toList.head?, IsNumeral c :=
  ⟨_, List.head_mem_head? (toList_toString_ne_nil n), isNumeral_of_mem_toString (List.head_mem _)⟩

theorem isWord_toString (n : Int) : IsWord (toString n) := by
  obtain ⟨c, hc, hnumeral⟩ := isNumeral_head_toString n
  exact ⟨⟨c, hc, hnumeral.isInitial⟩, fun _ h => (isNumeral_of_mem_toString h).isInitial.2.2.2⟩

theorem IsWord.toList_eq {w : String} (h : IsWord w) : ∃ c cs, w.toList = c :: cs ∧ IsInitial c := by
  obtain ⟨⟨c, hc, hinitial⟩, -⟩ := h
  obtain ⟨cs, hcs⟩ := List.head?_eq_some_iff.1 hc
  exact ⟨c, cs, hcs, hinitial⟩

theorem isWord_truth (b : Bool) : IsWord (Atom.bool b).render := by
  cases b <;> simp only [IsWord, Atom.render] <;> simp <;> decide

theorem truth_ne_toString (b : Bool) (n : Int) : (Atom.bool b).render ≠ toString n := by
  obtain ⟨c, hc, hnumeral⟩ := isNumeral_head_toString n
  intro h
  rw [← h] at hc
  revert hnumeral
  cases b <;> obtain rfl : _ = c := by simpa [Atom.render] using hc
  all_goals decide

theorem IsName.ne_truth {label : String} (h : IsName label) (b : Bool) : label ≠ (Atom.bool b).render := by
  cases b
  · exact h.2.2.2
  · exact h.2.2.1

theorem IsName.ne_toString {label : String} (h : IsName label) (n : Int) : label ≠ toString n := by
  obtain ⟨c, hc, hnumeral⟩ := isNumeral_head_toString n
  rintro rfl
  exact h.2.1 c hc hnumeral

/-- The labels of the variables are names, and different variables have different ones. -/
structure Named (R : Set Var) : Prop where
  names : ∀ x ∈ R, IsName x.label
  apart : Set.InjOn Var.label R

namespace Term

/-- All integers of the term are of one type. -/
def IntsOf (k : IntKind) : Term → Prop
  | .atom _ (.int kind _) => kind = k
  | .pair _ a d => a.IntsOf k ∧ d.IntsOf k
  | _ => True

/-- The integers of the term are of the given type, and its variables are among the given ones. -/
structure Legible (k : IntKind) (R : Set Var) (t : Term) : Prop where
  ints : t.IntsOf k
  vars : t.Over R

variable {k : IntKind} {R : Set Var} {s t : Term} {w : String} {q : Char} {cs : List Char}

/-- The trees that are written as one word. -/
inductive WordOf (k : IntKind) (R : Set Var) : Term → String → Prop
  | bool (b : Bool) : WordOf k R (.atom 0 (.bool b)) (Atom.bool b).render
  | int (n : Int) : WordOf k R (.atom 0 (.int k n)) (toString n)
  | var (x : Var) (hx : x ∈ R) : WordOf k R (.var x) x.label

theorem legible_pair {i : Nat} {a d : Term} : (pair i a d).Legible k R ↔ a.Legible k R ∧ d.Legible k R :=
  ⟨fun h => ⟨⟨h.ints.1, (over_pair.1 h.vars).1⟩, ⟨h.ints.2, (over_pair.1 h.vars).2⟩⟩,
    fun h => ⟨⟨h.1.ints, h.2.ints⟩, over_pair.2 ⟨h.1.vars, h.2.vars⟩⟩⟩

theorem WordOf.isWord (hR : Named R) (h : WordOf k R t w) : IsWord w := by
  cases h with
  | bool b => exact isWord_truth b
  | int n => exact isWord_toString n
  | var x hx => exact (hR.names x hx).1

theorem WordOf.unique (hR : Named R) (hs : WordOf k R s w) (ht : WordOf k R t w) : s = t := by
  generalize hv : w = v at ht
  cases hs <;> cases ht
  case bool.bool b c =>
    obtain rfl : b = c := by revert hv; cases b <;> cases c <;> decide
    rfl
  case int.int m n =>
    rw [Int.toString_eq_repr, Int.toString_eq_repr, Int.repr_inj] at hv
    rw [hv]
  case var.var x hx y hy => rw [hR.apart hx hy hv]
  case bool.int b n => exact (truth_ne_toString b n hv).elim
  case int.bool n b => exact (truth_ne_toString b n hv.symm).elim
  case bool.var b x hx => exact ((hR.names x hx).ne_truth b hv.symm).elim
  case var.bool x hx b => exact ((hR.names x hx).ne_truth b hv).elim
  case int.var n x hx => exact ((hR.names x hx).ne_toString n hv.symm).elim
  case var.int x hx n => exact ((hR.names x hx).ne_toString n hv).elim

/-- The trees that are written between quotes, with the quote and the characters. -/
inductive QuotedAs : Term → Char → List Char → Prop
  | char (c : Char) : QuotedAs (.atom 0 (.char c)) singleQuote [c]
  | text (s : String) : QuotedAs (.atom 0 (.text s)) doubleQuote s.toList

theorem QuotedAs.isQuote (h : QuotedAs t q cs) : IsQuote q := by
  cases h with
  | char => exact .inr rfl
  | text => exact .inl rfl

theorem QuotedAs.unique (hs : QuotedAs s q cs) (ht : QuotedAs t q cs) : s = t := by
  generalize hp : q = p at ht
  generalize hds : cs = ds at ht
  cases hs <;> cases ht
  case char.char => rw [List.singleton_inj.1 hds]
  case text.text => rw [String.toList_inj.1 hds]
  case char.text => exact absurd hp (by decide)
  case text.char => exact absurd hp (by decide)

/-- The lists and what is written between their parentheses. -/
inductive Contents : Term → List Char → Prop
  | nil : Contents .nil []
  | pair (i : Nat) (a d : Term) : Contents (.pair i a d) (text a ++ restText d)

/-- The forms of written terms: lists, quoted texts and words. -/
inductive Form (k : IntKind) (R : Set Var) : Term → List Char → Prop
  | list {t : Term} {u : List Char} (h : Contents t u) : Form k R t ('(' :: (u ++ [')']))
  | quoted {t : Term} {q : Char} {cs : List Char} (h : QuotedAs t.bare q cs) : Form k R t (between q cs)
  | word {t : Term} {w : String} (h : WordOf k R t.bare w) : Form k R t w.toList

theorem form_text (ht : t.Legible k R) : Form k R t t.text := by
  cases t with
  | nil => exact text_nil ▸ .list .nil
  | pair i a d => exact text_pair i a d ▸ .list (.pair i a d)
  | var x =>
    have h : text (var x) = x.label.toList := by simp [text, render, write]
    exact h ▸ .word (.var x (over_var.1 ht.vars))
  | atom i a =>
    have h : text (atom i a) = a.render.toList := by simp [text, render, write]
    rw [h]
    cases a with
    | bool b => exact .word (.bool b)
    | int kind n =>
      obtain rfl : kind = k := ht.ints
      exact .word (.int n)
    | char c =>
      rw [Atom.render, quotedChar, String.toList_ofList]
      exact .quoted (.char c)
    | text s =>
      rw [Atom.render, Text.quoted, String.toList_ofList]
      exact .quoted (.text s)

/-! ### Reading back -/

variable {r r' : List Char}

/-- What stands before a remainder ends there as a word: the remainder is empty or begins with a break. -/
def Breaks (r : List Char) : Prop :=
  ∀ c ∈ r.head?, IsBreak c

/-- No term is written with a break or a dot first. -/
theorem text_append_eq (hR : Named R) (ht : t.Legible k R) (r : List Char) :
    ∃ c cs, t.text ++ r = c :: cs ∧ ¬IsBreak c ∧ c ≠ '.' := by
  have hform := form_text ht
  generalize t.text = w at hform ⊢
  cases hform with
  | list => exact ⟨_, _, rfl, by decide⟩
  | quoted h => exact ⟨_, _, rfl, by rcases h.isQuote with rfl | rfl <;> decide⟩
  | word h =>
    obtain ⟨c, cs, hcs, hinitial⟩ := (h.isWord hR).toList_eq
    exact ⟨c, cs ++ r, by rw [hcs]; rfl, hinitial.2.2.2, hinitial.2.2.1⟩

theorem text_append_ne_dot (hR : Named R) (ht : t.Legible k R) : text t ++ r ≠ '.' :: r' := by
  obtain ⟨d, cs, hcs, -, hdot⟩ := text_append_eq hR ht r
  rw [hcs]
  exact fun h => hdot (List.cons.inj h).1

theorem text_append_ne_break {c : Char} (hR : Named R) (ht : t.Legible k R) (hc : IsBreak c) :
    text t ++ r ≠ c :: r' := by
  obtain ⟨d, cs, hcs, hbreak, -⟩ := text_append_eq hR ht r
  rw [hcs]
  exact fun h => hbreak ((List.cons.inj h).1 ▸ hc)

theorem list_ne_quoted (hq : IsQuote q) {u : List Char} : '(' :: u ++ r ≠ between q cs ++ r' := by
  intro h
  obtain rfl : '(' = q := (List.cons.inj h).1
  exact absurd hq (by decide)

theorem list_ne_word (hw : IsWord w) {u : List Char} : '(' :: u ++ r ≠ w.toList ++ r' := by
  obtain ⟨c, cs, hcs, hinitial⟩ := hw.toList_eq
  rw [hcs]
  exact fun h => hinitial.1 (List.cons.inj h).1.symm

theorem quoted_ne_word (hq : IsQuote q) (hw : IsWord w) : between q cs ++ r ≠ w.toList ++ r' := by
  obtain ⟨c, cs', hcs, hinitial⟩ := hw.toList_eq
  rw [hcs]
  exact fun h => hinitial.2.1 ((List.cons.inj h).1 ▸ hq)

/-- Texts that agree up to their ends belong to one tree, or to two pairs whose contents agree. -/
theorem text_append_cases (hR : Named R) (hs : s.Legible k R) (ht : t.Legible k R) (hr : Breaks r) (hr' : Breaks r')
    (h : text s ++ r = text t ++ r') :
    (s.bare = t.bare ∧ r = r') ∨ ∃ i a d j b e, s = .pair i a d ∧ t = .pair j b e ∧
      text a ++ (restText d ++ ')' :: r) = text b ++ (restText e ++ ')' :: r') := by
  have hforms := form_text hs
  have hformt := form_text ht
  generalize s.text = v at h hforms
  generalize t.text = w at h hformt
  cases hforms <;> cases hformt
  case list.list u hu u' hu' =>
    have hcontents : u ++ ')' :: r = u' ++ ')' :: r' := by simpa using h
    cases hu <;> cases hu'
    case nil.nil => exact .inl ⟨rfl, by simpa using hcontents⟩
    case pair.pair i a d j b e => exact .inr ⟨i, a, d, j, b, e, rfl, rfl, by simpa using hcontents⟩
    -- the items of a list do not begin with its closing parenthesis
    case nil.pair j b e =>
      rw [List.append_assoc] at hcontents
      exact (text_append_ne_break hR (legible_pair.1 ht).1 (.inr rfl) hcontents.symm).elim
    case pair.nil i a d =>
      rw [List.append_assoc] at hcontents
      exact (text_append_ne_break hR (legible_pair.1 hs).1 (.inr rfl) hcontents).elim
  case quoted.quoted q cs h₁ q' cs' h₂ =>
    obtain rfl : q = q' := (List.cons.inj h).1
    obtain ⟨rfl, rfl⟩ := between_append_inj h₁.isQuote h
    exact .inl ⟨h₁.unique h₂, rfl⟩
  case word.word w h₁ w' h₂ =>
    obtain ⟨hww, rfl⟩ := append_inj_of_ends (h₁.isWord hR).2 (h₂.isWord hR).2 hr hr' h
    obtain rfl := String.toList_inj.1 hww
    exact .inl ⟨h₁.unique hR h₂, rfl⟩
  case list.quoted h₂ => exact (list_ne_quoted h₂.isQuote h).elim
  case quoted.list h₁ _ _ => exact (list_ne_quoted h₁.isQuote h.symm).elim
  case list.word h₂ => exact (list_ne_word (h₂.isWord hR) h).elim
  case word.list h₁ _ _ => exact (list_ne_word (h₁.isWord hR) h.symm).elim
  case quoted.word h₁ _ h₂ => exact (quoted_ne_word h₁.isQuote (h₂.isWord hR) h).elim
  case word.quoted h₁ _ _ h₂ => exact (quoted_ne_word h₂.isQuote (h₁.isWord hR) h.symm).elim

/-- What follows the first item of a list: nothing, a blank and further items, or a dot between blanks and the end. -/
inductive Rest : Term → List Char → Prop
  | nil : Rest .nil []
  | pair (i : Nat) (a d : Term) : Rest (.pair i a d) (' ' :: (text a ++ restText d))
  | leaf {t : Term} (hpair : t.isPair = false) : Rest t (' ' :: '.' :: ' ' :: text t)

theorem rest_restText (t : Term) : Rest t (restText t) := by
  cases t with
  | nil => exact restText_nil ▸ .nil
  | pair i a d => exact restText_pair i a d ▸ .pair i a d
  | atom i a => exact restText_of_leaf (t := .atom i a) rfl rfl ▸ .leaf rfl
  | var x => exact restText_of_leaf (t := .var x) rfl rfl ▸ .leaf rfl

theorem breaks_restText (t : Term) (r : List Char) : Breaks (restText t ++ ')' :: r) := by
  have hrest := rest_restText t
  generalize restText t = w at hrest ⊢
  cases hrest <;> simp [Breaks, IsBreak]

/-- Rests of lists that agree up to the closing parentheses are those of two ends of lists that are written alike, or of
two pairs whose contents agree. -/
theorem restText_append_cases (hR : Named R) (hs : s.Legible k R) (ht : t.Legible k R)
    (h : restText s ++ ')' :: r = restText t ++ ')' :: r') :
    (s.isPair = false ∧ text s ++ ')' :: r = text t ++ ')' :: r') ∨
      ∃ i a d j b e, s = .pair i a d ∧ t = .pair j b e ∧
        text a ++ (restText d ++ ')' :: r) = text b ++ (restText e ++ ')' :: r') := by
  have hrests := rest_restText s
  have hrestt := rest_restText t
  generalize restText s = v at h hrests
  generalize restText t = w at h hrestt
  cases hrests <;> cases hrestt
  case nil.nil => exact .inl ⟨rfl, by simpa using h⟩
  case pair.pair i a d j b e => exact .inr ⟨i, a, d, j, b, e, rfl, rfl, by simpa using h⟩
  case leaf.leaf hpair _ => exact .inl ⟨hpair, by simpa using h⟩
  -- a closing parenthesis is no blank, and no item begins with a dot
  case nil.pair => simp at h
  case pair.nil => simp at h
  case nil.leaf => simp at h
  case leaf.nil => simp at h
  case pair.leaf i a d _ =>
    have hitem : text a ++ (restText d ++ ')' :: r) = '.' :: ' ' :: (text t ++ ')' :: r') := by simpa using h
    exact (text_append_ne_dot hR (legible_pair.1 hs).1 hitem).elim
  case leaf.pair _ j b e =>
    have hitem : text b ++ (restText e ++ ')' :: r') = '.' :: ' ' :: (text s ++ ')' :: r) := by simpa using h.symm
    exact (text_append_ne_dot hR (legible_pair.1 ht).1 hitem).elim

/-- The text of the term can be read back in one way before any break, and its text as the rest of a list in one way
before a closing parenthesis. -/
structure ReadBack (k : IntKind) (R : Set Var) (s : Term) : Prop where
  text : ∀ {t : Term} {r r' : List Char}, t.Legible k R → Breaks r → Breaks r' → s.text ++ r = t.text ++ r' →
    s.bare = t.bare ∧ r = r'
  rest : ∀ {t : Term} {r r' : List Char}, t.Legible k R → s.restText ++ ')' :: r = t.restText ++ ')' :: r' →
    s.bare = t.bare ∧ r = r'

theorem readBack_of_leaf (hR : Named R) (hs : s.Legible k R) (hleaf : s.isPair = false) : ReadBack k R s := by
  have hclosing : ∀ r, Breaks (')' :: r) := by simp [Breaks, IsBreak]
  have htext : ∀ {t : Term} {r r' : List Char}, t.Legible k R → Breaks r → Breaks r' → s.text ++ r = t.text ++ r' →
      s.bare = t.bare ∧ r = r' := by
    intro t r r' ht hr hr' h
    obtain h | ⟨i, a, d, _, _, _, rfl, -⟩ := text_append_cases hR hs ht hr hr' h
    · exact h
    · cases hleaf
  refine ⟨htext, fun {t r r'} ht h => ?_⟩
  obtain ⟨-, h⟩ | ⟨i, a, d, _, _, _, rfl, -⟩ := restText_append_cases hR hs ht h
  · obtain ⟨hbare, hr⟩ := htext ht (hclosing r) (hclosing r') h
    exact ⟨hbare, (List.cons.inj hr).2⟩
  · cases hleaf

/-- The contents of a pair are read car first, whose text ends before the rest, and then as the rest of a list. -/
theorem readBack_pair {i : Nat} {a d : Term} (hR : Named R) (hs : (pair i a d).Legible k R) (ha : ReadBack k R a)
    (hd : ReadBack k R d) : ReadBack k R (pair i a d) := by
  have hcontents : ∀ {j : Nat} {b e : Term} {r r' : List Char}, (pair j b e).Legible k R →
      a.text ++ (d.restText ++ ')' :: r) = b.text ++ (e.restText ++ ')' :: r') →
      (pair i a d).bare = (pair j b e).bare ∧ r = r' := by
    intro j b e r r' ht h
    obtain ⟨hb, he⟩ := legible_pair.1 ht
    obtain ⟨hcar, hrest⟩ := ha.text hb (breaks_restText d r) (breaks_restText e r') h
    obtain ⟨hcdr, hr⟩ := hd.rest he hrest
    exact ⟨by rw [bare, bare, hcar, hcdr], hr⟩
  constructor
  · intro t r r' ht hr hr' h
    obtain h | ⟨_, _, _, j, b, e, hpair, rfl, h⟩ := text_append_cases hR hs ht hr hr' h
    · exact h
    · cases hpair
      exact hcontents ht h
  · intro t r r' ht h
    obtain ⟨hleaf, -⟩ | ⟨_, _, _, j, b, e, hpair, rfl, h⟩ := restText_append_cases hR hs ht h
    · cases hleaf
    · cases hpair
      exact hcontents ht h

theorem readBack (hR : Named R) (hs : s.Legible k R) : ReadBack k R s := by
  induction s with
  | pair i a d iha ihd => exact readBack_pair hR hs (iha (legible_pair.1 hs).1) (ihd (legible_pair.1 hs).2)
  | _ => exact readBack_of_leaf hR hs rfl

/-- Terms that are written alike are the same tree. -/
theorem same_of_render_eq (hR : Named R) (hs : s.Legible k R) (ht : t.Legible k R) (h : s.render = t.render) :
    s.same t = true := by
  have hend : Breaks [] := nofun
  have htext : s.text ++ [] = t.text ++ [] := by rw [text, text, h]
  exact same_iff.2 ((readBack hR hs).text ht hend hend htext).1

end Term

/-! ### Main statement -/

/-- The empty list is written `()` and a pair as the items along its cdrs with single blanks between them, then a dot
and the end of the cdrs unless it is the empty list, in parentheses.  The alternate way to format a term gives the same
text, and the alternate way to format a pair the same text without its parentheses.  Terms with integers of one type
and variables with different names are the same tree if they are written alike. -/
theorem render_unique :
    (Term.nil.render = "()" ∧ ∀ i a d, (Term.pair i a d).render =
      "(" ++ " ".intercalate ((a :: d.spine.1).map Term.render) ++ d.spine.2.ending ++ ")") ∧
    (∀ alternate t, Term.format alternate t = t.render) ∧
    (∀ i a d, Term.formatPair false a d = (Term.pair i a d).render ∧ Term.formatPair true a d = Term.openRender a d ∧
      (Term.pair i a d).render = "(" ++ Term.formatPair true a d ++ ")") ∧
    ∀ (k : IntKind) (R : Set Var), Named R → ∀ s t : Term, s.Legible k R → t.Legible k R → s.render = t.render →
      s.same t = true := by
  refine ⟨⟨by simp [Term.render, Term.write], fun i a d => ?_⟩, Term.format_eq, fun i a d => ?_, ?_⟩
  · rw [Term.render_pair, Term.openRender_eq]
    simp [String.append_assoc]
  · have hopen : Term.formatPair true a d = Term.openRender a d := by
      rw [Term.formatPair_eq]
      simp [Term.parens]
    exact ⟨by rw [Term.formatPair_eq, Term.render_pair]; rfl, hopen, by rw [Term.render_pair, hopen]⟩
  · exact fun k R hR s t hs ht h => Term.same_of_render_eq hR hs ht h

/-- A text with a dot and a parenthesis in it, a nested number and a variable at the end. -/
def Term.dotted (i j : Nat) : Term :=
  .pair i (.atom j (.text ") . (")) (.pair j (.pair i (.atom i (.int .i32 (-1))) .nil) (.var ⟨0, "x"⟩))

theorem named_singleton : Named {⟨0, "x"⟩} :=
  ⟨by simp [IsName, IsWord]; decide, Set.injOn_singleton ..⟩

/-- Two terms that are written `(") . (" (-1) . x)`. -/
theorem render_unique_dotted :
    (Term.dotted 1 2).render = (Term.dotted 3 4).render ∧ (Term.dotted 1 2).same (Term.dotted 3 4) = true := by
  have hlegible : ∀ i j, (Term.dotted i j).Legible .i32 {⟨0, "x"⟩} := fun i j =>
    ⟨⟨trivial, ⟨rfl, trivial⟩, trivial⟩, by simp [Term.dotted, Term.Over, Term.vars]⟩
  exact ⟨rfl, render_unique.2.2.2 .i32 _ named_singleton _ _ (hlegible 1 2) (hlegible 3 4) rfl⟩

end RelLogic
