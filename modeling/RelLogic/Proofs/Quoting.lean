import RelLogic.Text.Quoted

/-!
# Quoted texts are uniquely readable

The code of a character between quotes begins with a backslash, or else is the character itself, and no code is the
beginning of another one (`Text.escape_append_inj`).  No code begins with the quote either.  So a quoted text ends at
the first quote that begins a code, and what stands between the quotes can be read back in one way only
(`Text.between_append_inj`), whatever comes after it.
-/

namespace RelLogic.Text

variable {q c d l : Char} {cs ds r s w w' : List Char} {m n : Nat}

/-! ### Words before a delimiter -/

/-- The words end at the first character with a property that none of theirs has. -/
theorem append_inj_of_ends {P : Char → Prop} (hw : ∀ c ∈ w, ¬P c) (hw' : ∀ c ∈ w', ¬P c)
    (hr : ∀ c ∈ r.head?, P c) (hs : ∀ c ∈ s.head?, P c) (h : w ++ r = w' ++ s) : w = w' ∧ r = s := by
  induction w generalizing w' with
  | nil =>
    cases w' with
    | nil => exact ⟨rfl, h⟩
    | cons c w' =>
      obtain rfl : r = c :: (w' ++ s) := h
      exact (hw' c (List.mem_cons_self ..) (hr c rfl)).elim
  | cons c w ih =>
    cases w' with
    | nil =>
      obtain rfl : c :: (w ++ r) = s := h
      exact (hw c (List.mem_cons_self ..) (hs c rfl)).elim
    | cons c' w' =>
      obtain ⟨rfl, htail⟩ := List.cons.inj h
      rw [List.forall_mem_cons] at hw hw'
      obtain ⟨rfl, hrest⟩ := ih hw.2 hw'.2 htail
      exact ⟨rfl, hrest⟩

/-! ### Hexadecimal numbers -/

private theorem digitChar_inj : ∀ m < 16, ∀ n < 16, Nat.digitChar m = Nat.digitChar n → m = n := by
  decide

private theorem digitChar_ne_brace : ∀ m < 16, Nat.digitChar m ≠ '\x7d' := by
  decide

theorem ne_brace_of_mem_toDigits (h : c ∈ Nat.toDigits 16 n) : c ≠ '\x7d' := by
  induction n using Nat.strongRecOn with
  | ind n ih =>
    rw [Nat.toDigits_eq_if (by decide)] at h
    split at h
    · rename_i hn
      rw [List.mem_singleton] at h
      exact h ▸ digitChar_ne_brace n hn
    · rw [List.mem_append, List.mem_singleton] at h
      rcases h with h | rfl
      · exact ih (n / 16) (by omega) h
      · exact digitChar_ne_brace (n % 16) (Nat.mod_lt n (by decide))

theorem toDigits_injective (h : Nat.toDigits 16 m = Nat.toDigits 16 n) : m = n := by
  have hlonger : ∀ a k c, Nat.toDigits 16 k ++ [c] ≠ [a] := by
    intro a k c h
    have hlength := congrArg List.length h
    have hpos : 0 < (Nat.toDigits 16 k).length := Nat.length_toDigits_pos
    simp only [List.length_append, List.length_singleton] at hlength
    omega
  induction m using Nat.strongRecOn generalizing n with
  | ind m ih =>
    by_cases hm : m < 16 <;> by_cases hn : n < 16
    · rw [Nat.toDigits_of_lt_base hm, Nat.toDigits_of_lt_base hn, List.singleton_inj] at h
      exact digitChar_inj m hm n hn h
    · rw [Nat.toDigits_of_lt_base hm, Nat.toDigits_of_base_le (by decide) (Nat.le_of_not_lt hn)] at h
      exact (hlonger _ _ _ h.symm).elim
    · rw [Nat.toDigits_of_lt_base hn, Nat.toDigits_of_base_le (by decide) (Nat.le_of_not_lt hm)] at h
      exact (hlonger _ _ _ h).elim
    · rw [Nat.toDigits_of_base_le (by decide) (Nat.le_of_not_lt hm),
        Nat.toDigits_of_base_le (by decide) (Nat.le_of_not_lt hn)] at h
      obtain ⟨hinit, hlast⟩ := List.append_inj' h rfl
      have hdiv := ih (m / 16) (by omega) hinit
      have hmod := digitChar_inj (m % 16) (Nat.mod_lt m (by decide)) (n % 16) (Nat.mod_lt n (by decide))
        (List.singleton_inj.1 hlast)
      omega

/-! ### Codes of characters -/

/-- The characters around quoted texts. -/
def IsQuote (q : Char) : Prop :=
  q = doubleQuote ∨ q = singleQuote

/-- The character that a letter after a backslash stands for. -/
def unescape (l : Char) : Char :=
  if l = '0' then '\x00' else if l = 't' then '\t' else if l = 'r' then '\r' else if l = 'n' then '\n' else l

theorem unescape_of_escapeLetter? (hq : IsQuote q) (h : escapeLetter? q c = some l) : unescape l = c := by
  rcases hq with rfl | rfl <;> unfold escapeLetter? at h <;> grind [unescape, doubleQuote, singleQuote]

theorem ne_of_escapeLetter? (hq : IsQuote q) (h : escapeLetter? q c = some l) : l ≠ 'u' := by
  rcases hq with rfl | rfl <;> unfold escapeLetter? at h <;> grind [doubleQuote, singleQuote]

theorem ne_of_escapeLetter?_eq_none (h : escapeLetter? q c = none) : c ≠ '\\' ∧ c ≠ q := by
  unfold escapeLetter? at h
  grind

/-- The code of a character: a letter after a backslash, a number after a backslash, or the character itself. -/
inductive Code (q c : Char) : List Char → Prop
  | letter (l : Char) (h : escapeLetter? q c = some l) : Code q c ['\\', l]
  | number : Code q c (codePoint c)
  | plain (h : escapeLetter? q c = none) : Code q c [c]

theorem code_escape (q c : Char) : Code q c (escape q c) := by
  unfold escape
  split
  · exact .letter _ ‹_›
  · split
    · exact .number
    · exact .plain ‹_›

theorem codePoint_append (c : Char) (r : List Char) :
    codePoint c ++ r = '\\' :: 'u' :: '\x7b' :: (Nat.toDigits 16 c.toNat ++ '\x7d' :: r) := by
  simp [codePoint]

/-- The code of a character ends where it ends, whatever comes after it. -/
theorem escape_append_inj (hq : IsQuote q) (h : escape q c ++ r = escape q d ++ s) : c = d ∧ r = s := by
  have hc := code_escape q c
  have hd := code_escape q d
  generalize escape q c = w at hc h
  generalize escape q d = w' at hd h
  cases hc <;> cases hd
  case letter.letter l hl l' hl' =>
    obtain ⟨rfl, rfl⟩ : l = l' ∧ r = s := by simpa using h
    exact ⟨(unescape_of_escapeLetter? hq hl).symm.trans (unescape_of_escapeLetter? hq hl'), rfl⟩
  case letter.number l hl =>
    rw [codePoint_append] at h
    obtain ⟨rfl, -⟩ : l = 'u' ∧ _ := by simpa using h
    exact (ne_of_escapeLetter? hq hl rfl).elim
  case number.letter l hl =>
    rw [codePoint_append] at h
    obtain ⟨rfl, -⟩ : 'u' = l ∧ _ := by simpa using h
    exact (ne_of_escapeLetter? hq hl rfl).elim
  case number.number =>
    rw [codePoint_append, codePoint_append] at h
    have hdigits : Nat.toDigits 16 c.toNat ++ '\x7d' :: r = Nat.toDigits 16 d.toNat ++ '\x7d' :: s := by simpa using h
    obtain ⟨hnumber, hrest⟩ := append_inj_of_ends (P := (· = '\x7d')) (fun _ => ne_brace_of_mem_toDigits)
      (fun _ => ne_brace_of_mem_toDigits) (by simp) (by simp) hdigits
    exact ⟨Char.toNat_inj.1 (toDigits_injective hnumber), List.cons.inj hrest |>.2⟩
  case plain.plain => simpa using h
  -- a backslash never stands for itself
  case letter.plain l _ hplain => exact ((ne_of_escapeLetter?_eq_none hplain).1 (List.cons.inj h).1.symm).elim
  case number.plain hplain => exact ((ne_of_escapeLetter?_eq_none hplain).1 (List.cons.inj h).1.symm).elim
  case plain.letter hplain l _ => exact ((ne_of_escapeLetter?_eq_none hplain).1 (List.cons.inj h).1).elim
  case plain.number hplain => exact ((ne_of_escapeLetter?_eq_none hplain).1 (List.cons.inj h).1).elim

/-! ### Quoted texts -/

/-- No code begins with the quote. -/
theorem escape_append_ne (hq : IsQuote q) (c : Char) (r s : List Char) : escape q c ++ r ≠ q :: s := by
  have hquote : q ≠ '\\' := by rcases hq with rfl | rfl <;> decide
  intro h
  have hc := code_escape q c
  generalize escape q c = w at hc h
  cases hc with
  | letter l _ => exact hquote (List.cons.inj h).1.symm
  | number => exact hquote (List.cons.inj h).1.symm
  | plain hplain => exact (ne_of_escapeLetter?_eq_none hplain).2 (List.cons.inj h).1

theorem flatMap_escape_inj (hq : IsQuote q) (h : cs.flatMap (escape q) ++ q :: r = ds.flatMap (escape q) ++ q :: s) :
    cs = ds ∧ r = s := by
  induction cs generalizing ds with
  | nil =>
    cases ds with
    | nil => exact ⟨rfl, (List.cons.inj h).2⟩
    | cons d ds =>
      rw [List.flatMap_cons, List.append_assoc] at h
      exact (escape_append_ne hq d _ r h.symm).elim
  | cons c cs ih =>
    cases ds with
    | nil =>
      rw [List.flatMap_cons, List.append_assoc] at h
      exact (escape_append_ne hq c _ s h).elim
    | cons d ds =>
      rw [List.flatMap_cons, List.flatMap_cons, List.append_assoc, List.append_assoc] at h
      obtain ⟨rfl, htail⟩ := escape_append_inj hq h
      obtain ⟨rfl, hrest⟩ := ih htail
      exact ⟨rfl, hrest⟩

/-- What stands between two quotes can be read back in one way, whatever comes after it. -/
theorem between_append_inj (hq : IsQuote q) (h : between q cs ++ r = between q ds ++ s) : cs = ds ∧ r = s := by
  simp only [between, List.cons_append, List.append_assoc, List.nil_append, List.cons.injEq, true_and] at h
  exact flatMap_escape_inj hq h

end RelLogic.Text
