import LexicalLisp.Datum.Lexeme

/-!
# Lexemes in a text that goes on

More text behind a text can change how the text is cut into lexemes, but only at its very end: a
name or an integer that reaches the end may grow, and a `#` there takes the next character. This
file says which cuts are final.

* A lexeme that leaves something of the text behind it is final, and so is a closing parenthesis
  (`next_append_of_ne_nil`).
* In front of a line feed every lexeme is final (`next_append_newline`). Only a `#` at the end takes
  the line feed itself, and then what is left differs by layout alone.
* A text that does not begin with a lexeme never will, whatever follows (`next_append_error`). The
  digits of an integer out of range can become more, but not fewer.

All of this comes from one case distinction on the first character behind the layout, `Initial`.
-/

namespace LexicalLisp

/-! ## Layout -/

mutual

theorem skipLayout_append_of_eq_cons {c : Char} {rest : List Char} (more : List Char) :
    ∀ {text : List Char}, skipLayout text = c :: rest →
      skipLayout (text ++ more) = c :: (rest ++ more)
  | [], h => by simp [skipLayout] at h
  | a :: text, h => by
    rw [skipLayout] at h
    rw [List.cons_append, skipLayout]
    by_cases hs : Text.isSpace a = true
    · rw [if_pos hs] at h ⊢
      exact skipLayout_append_of_eq_cons more h
    rw [if_neg hs] at h ⊢
    by_cases hc : (a == ';') = true
    · rw [if_pos hc] at h ⊢
      exact skipComment_append_of_eq_cons more h
    rw [if_neg hc] at h ⊢
    obtain ⟨rfl, rfl⟩ := List.cons.inj h
    rfl

private theorem skipComment_append_of_eq_cons {c : Char} {rest : List Char} (more : List Char) :
    ∀ {text : List Char}, skipComment text = c :: rest →
      skipComment (text ++ more) = c :: (rest ++ more)
  | [], h => by simp [skipComment] at h
  | a :: text, h => by
    rw [skipComment] at h
    rw [List.cons_append, skipComment]
    by_cases hn : (a == '\n') = true
    · rw [if_pos hn] at h ⊢
      exact skipLayout_append_of_eq_cons more h
    · rw [if_neg hn] at h ⊢
      exact skipComment_append_of_eq_cons more h

end

theorem skipLayout_append_ne_nil {text : List Char} (h : skipLayout text ≠ [])
    (more : List Char) : skipLayout (text ++ more) ≠ [] := by
  obtain ⟨c, rest, hskip⟩ := List.exists_cons_of_ne_nil h
  rw [skipLayout_append_of_eq_cons more hskip]
  exact List.cons_ne_nil _ _

mutual

theorem skipLayout_skipLayout : ∀ text : List Char, skipLayout (skipLayout text) = skipLayout text
  | [] => rfl
  | a :: text => by
    rw [skipLayout]
    by_cases hs : Text.isSpace a = true
    · rw [if_pos hs, skipLayout_skipLayout text]
    rw [if_neg hs]
    by_cases hc : (a == ';') = true
    · rw [if_pos hc, skipLayout_skipComment text]
    · rw [if_neg hc, skipLayout, if_neg hs, if_neg hc]

private theorem skipLayout_skipComment : ∀ text : List Char,
    skipLayout (skipComment text) = skipComment text
  | [] => rfl
  | a :: text => by
    rw [skipComment]
    split
    · exact skipLayout_skipLayout text
    · exact skipLayout_skipComment text

end

@[simp] theorem skipLayout_newline (text : List Char) :
    skipLayout ('\n' :: text) = skipLayout text := by
  rw [skipLayout, if_pos (by decide)]

mutual

/-- A line feed ends whatever layout has begun, a comment included. -/
theorem skipLayout_append_newline (more : List Char) :
    ∀ {text : List Char}, skipLayout text = [] →
      skipLayout (text ++ '\n' :: more) = skipLayout more
  | [], _ => by rw [List.nil_append, skipLayout_newline]
  | a :: text, h => by
    rw [skipLayout] at h
    rw [List.cons_append, skipLayout]
    by_cases hs : Text.isSpace a = true
    · rw [if_pos hs] at h ⊢
      exact skipLayout_append_newline more h
    rw [if_neg hs] at h ⊢
    by_cases hc : (a == ';') = true
    · rw [if_pos hc] at h ⊢
      exact skipComment_append_newline more h
    · rw [if_neg hc] at h
      cases h

private theorem skipComment_append_newline (more : List Char) :
    ∀ {text : List Char}, skipComment text = [] →
      skipComment (text ++ '\n' :: more) = skipLayout more
  | [], _ => by rw [List.nil_append, skipComment, if_pos (by decide)]
  | a :: text, h => by
    rw [skipComment] at h
    rw [List.cons_append, skipComment]
    by_cases hn : (a == '\n') = true
    · rw [if_pos hn] at h ⊢
      exact skipLayout_append_newline more h
    · rw [if_neg hn] at h ⊢
      exact skipComment_append_newline more h

end

/-! ## Classes of characters -/

namespace Text

theorem ne_of_class {p : Char → Bool} {c d : Char} (hc : p c = true) (hd : p d = false) :
    c ≠ d := by
  rintro rfl
  rw [hd] at hc
  cases hc

theorem isDigit_of_isDelimiter {c : Char} (h : isDelimiter c = true) : c.isDigit = false := by
  simp only [isDelimiter, Bool.or_eq_true, beq_iff_eq] at h
  rcases h with (((rfl | rfl) | rfl) | rfl) | rfl <;> decide

end Text

/-! ## Runs of characters -/

private theorem takeWhile_append_of_neg {p : Char → Bool} {c : Char} (hc : p c = false)
    (text more : List Char) : (text ++ c :: more).takeWhile p = text.takeWhile p := by
  rw [List.takeWhile_append]
  split
  next h =>
    rw [List.takeWhile_cons_of_neg (by rw [hc]; exact Bool.false_ne_true), List.append_nil]
    exact ((List.takeWhile_prefix p).eq_of_length h).symm
  next => rfl

private theorem dropWhile_append_of_neg {p : Char → Bool} {c : Char} (hc : p c = false)
    (text more : List Char) :
    (text ++ c :: more).dropWhile p = text.dropWhile p ++ c :: more := by
  rw [List.dropWhile_append]
  split
  next h =>
    rw [List.isEmpty_iff.mp h, List.dropWhile_cons_of_neg (by rw [hc]; exact Bool.false_ne_true),
      List.nil_append]
  next => rfl

private theorem dropWhile_append_of_ne_nil {p : Char → Bool} {text : List Char}
    (h : text.dropWhile p ≠ []) (more : List Char) :
    (text ++ more).dropWhile p = text.dropWhile p ++ more := by
  rw [List.dropWhile_append, if_neg (by rwa [List.isEmpty_iff])]

private theorem takeWhile_append_of_ne_nil {p : Char → Bool} {text : List Char}
    (h : text.dropWhile p ≠ []) (more : List Char) :
    (text ++ more).takeWhile p = text.takeWhile p := by
  rw [List.takeWhile_append, if_neg]
  intro hlen
  apply h
  have hsplit := congrArg List.length (List.takeWhile_append_dropWhile (p := p) (l := text))
  rw [List.length_append, hlen] at hsplit
  exact List.eq_nil_of_length_eq_zero (by omega)

/-- What a longer text adds to a run of characters comes behind it. -/
private theorem exists_takeWhile_append (p : Char → Bool) (text more : List Char) :
    ∃ added, (text ++ more).takeWhile p = text.takeWhile p ++ added := by
  rw [List.takeWhile_append]
  split
  next h =>
    refine ⟨more.takeWhile p, ?_⟩
    rw [(List.takeWhile_prefix p).eq_of_length h]
  next => exact ⟨[], (List.append_nil _).symm⟩

/-- Errors that say the same of a text, except that the digits of an integer out of range may
differ. -/
def ReadError.SameKind : ReadError → ReadError → Prop
  | unexpectedChar c, unexpectedChar c' => c = c'
  | integerOverflow _, integerOverflow _ => True
  | unexpectedEnd, unexpectedEnd => True
  | unterminatedList, unterminatedList => True
  | _, _ => False

namespace Lexeme

/-! ## The first character -/

/-- The characters that begin a name. -/
def BeginsName (c : Char) : Prop :=
  Text.isDelimiter c = false ∧ c.isDigit = false ∧ c ≠ '#' ∧ c ≠ Text.quoteMark

/-- What the first character of a text says about the lexeme that it begins. -/
inductive Initial : Char → Prop
  | openList : Initial '('
  | closeList : Initial ')'
  | quote : Initial Text.quoteMark
  | hash : Initial '#'
  | digit {c : Char} (h : c.isDigit = true) : Initial c
  | stray {c : Char} (h : Text.isDelimiter c = true) (ho : c ≠ '(') (hc : c ≠ ')') : Initial c
  | name {c : Char} (h : BeginsName c) : Initial c

theorem Initial.of (c : Char) : Initial c := by
  by_cases ho : c = '('
  · exact ho ▸ .openList
  by_cases hc : c = ')'
  · exact hc ▸ .closeList
  by_cases hq : c = Text.quoteMark
  · exact hq ▸ .quote
  by_cases hh : c = '#'
  · exact hh ▸ .hash
  by_cases hd : c.isDigit = true
  · exact .digit hd
  by_cases hs : Text.isDelimiter c = true
  · exact .stray hs ho hc
  · exact .name ⟨Bool.not_eq_true _ ▸ hs, Bool.not_eq_true _ ▸ hd, hh, hq⟩

theorem start_digit {c : Char} (h : c.isDigit = true) (text : List Char) :
    start c text = (ofDigits (c :: text.takeWhile Char.isDigit)).map
      (·, text.dropWhile Char.isDigit) := by
  have hne : ∀ d : Char, d.isDigit = false → c ≠ d := fun d hd ↦ Text.ne_of_class h hd
  rw [start, if_neg (hne _ (by decide)), if_neg (hne _ (by decide)), if_neg (hne _ (by decide)),
    if_neg (hne _ (by decide)), if_pos h]
  cases ofDigits (c :: text.takeWhile Char.isDigit) <;> rfl

theorem start_digit_eq_ok_iff {c : Char} (h : c.isDigit = true) {text rest : List Char}
    {l : Lexeme} : start c text = .ok (l, rest) ↔
      ofDigits (c :: text.takeWhile Char.isDigit) = .ok l ∧ text.dropWhile Char.isDigit = rest := by
  rw [start_digit h]
  cases ofDigits (c :: text.takeWhile Char.isDigit) <;> simp [Except.map]

theorem start_digit_eq_error_iff {c : Char} (h : c.isDigit = true) {text : List Char}
    {e : ReadError} : start c text = .error e ↔
      ofDigits (c :: text.takeWhile Char.isDigit) = .error e := by
  rw [start_digit h]
  cases ofDigits (c :: text.takeWhile Char.isDigit) <;> simp [Except.map]

theorem start_stray {c : Char} (h : Text.isDelimiter c = true) (ho : c ≠ '(') (hc : c ≠ ')')
    (text : List Char) : start c text = .error (.unexpectedChar c) := by
  have hne : ∀ d : Char, Text.isDelimiter d = false → c ≠ d := fun d hd ↦ Text.ne_of_class h hd
  rw [start, if_neg ho, if_neg hc, if_neg (hne _ (by decide)), if_neg (hne _ (by decide)),
    if_neg (by simp [Text.isDigit_of_isDelimiter h]), if_pos h]

theorem start_name {c : Char} (h : BeginsName c) (text : List Char) :
    start c text = .ok (atom (.symbol (String.ofList (c :: text.takeWhile Text.isNameChar))),
      text.dropWhile Text.isNameChar) := by
  obtain ⟨hs, hd, hh, hq⟩ := h
  have hne : ∀ d : Char, Text.isDelimiter d = true → c ≠ d := fun d hd ↦
    (Text.ne_of_class hd hs).symm
  rw [start, if_neg (hne _ (by decide)), if_neg (hne _ (by decide)), if_neg hq, if_neg hh,
    if_neg (by rw [hd]; exact Bool.false_ne_true), if_neg (by rw [hs]; exact Bool.false_ne_true)]

/-! ## Integers out of range -/

theorem ofDigitChars_le_append (digits added : List Char) :
    Nat.ofDigitChars 10 digits 0 ≤ Nat.ofDigitChars 10 (digits ++ added) 0 := by
  rw [Nat.ofDigitChars_append,
    @Nat.ofDigitChars_eq_ofDigitChars_zero added (Nat.ofDigitChars 10 digits 0)]
  calc Nat.ofDigitChars 10 digits 0
      ≤ 10 ^ added.length * Nat.ofDigitChars 10 digits 0 :=
        Nat.le_mul_of_pos_left _ (Nat.pow_pos (by decide))
    _ ≤ _ := Nat.le_add_right _ _

theorem ofDigits_eq_error_iff {digits : List Char} {e : ReadError} :
    ofDigits digits = .error e ↔
      Fixnum.ofInt? (Nat.ofDigitChars 10 digits 0) = none ∧
        e = .integerOverflow (String.ofList digits) := by
  rw [ofDigits]
  cases h : Fixnum.ofInt? (Nat.ofDigitChars 10 digits 0) with
  | none =>
    rw [Option.elim_none, Except.error.injEq]
    exact ⟨fun he ↦ ⟨rfl, he.symm⟩, fun he ↦ he.2.symm⟩
  | some value =>
    rw [Option.elim_some]
    exact ⟨nofun, nofun⟩

theorem ofDigits_append_error {digits : List Char} {e : ReadError}
    (h : ofDigits digits = .error e) (added : List Char) :
    ofDigits (digits ++ added) = .error (.integerOverflow (String.ofList (digits ++ added))) := by
  have hle := ofDigitChars_le_append digits added
  rw [ofDigits_eq_error_iff, Fixnum.ofInt?_eq_none_iff] at h ⊢
  obtain ⟨hout, -⟩ := h
  exact ⟨by omega, rfl⟩

theorem exists_atom_of_ofDigits {digits : List Char} {l : Lexeme}
    (h : ofDigits digits = .ok l) :
    ∃ value : Fixnum, value.val = Nat.ofDigitChars 10 digits 0 ∧ l = atom (.integer value) := by
  rw [ofDigits] at h
  cases hv : Fixnum.ofInt? (Nat.ofDigitChars 10 digits 0) with
  | none =>
    rw [hv] at h
    cases h
  | some value =>
    rw [hv] at h
    cases h
    exact ⟨value, Fixnum.ofInt?_eq_some_iff.mp hv, rfl⟩

/-! ## The first lexeme in a longer text -/

theorem start_append_newline {c : Char} {text rest : List Char} {l : Lexeme}
    (h : start c text = .ok (l, rest)) (more : List Char) :
    ∃ rest', start c (text ++ '\n' :: more) = .ok (l, rest') ∧
      skipLayout rest' = skipLayout (rest ++ '\n' :: more) := by
  cases Initial.of c with
  | openList | closeList | quote =>
    cases h
    exact ⟨_, rfl, rfl⟩
  | hash =>
    cases text with
    | nil =>
      -- the line feed is taken as the character after `#`
      cases h
      exact ⟨more, rfl, (skipLayout_newline more).symm⟩
    | cons a text =>
      cases h
      exact ⟨_, rfl, rfl⟩
  | digit hd =>
    obtain ⟨hv, rfl⟩ := (start_digit_eq_ok_iff hd).mp h
    have hnewline : '\n'.isDigit = false := by decide
    rw [← takeWhile_append_of_neg hnewline text more] at hv
    exact ⟨_, (start_digit_eq_ok_iff hd).mpr ⟨hv, rfl⟩,
      congrArg skipLayout (dropWhile_append_of_neg hnewline text more)⟩
  | stray hs ho hc =>
    rw [start_stray hs ho hc] at h
    cases h
  | name hn =>
    rw [start_name hn] at h ⊢
    rw [takeWhile_append_of_neg (by decide), dropWhile_append_of_neg (by decide)]
    cases h
    exact ⟨_, rfl, rfl⟩

theorem start_append_of_ne_nil {c : Char} {text rest : List Char} {l : Lexeme}
    (h : start c text = .ok (l, rest)) (hrest : rest ≠ [] ∨ l = closeList) (more : List Char) :
    start c (text ++ more) = .ok (l, rest ++ more) := by
  cases Initial.of c with
  | openList | closeList | quote =>
    cases h
    rfl
  | hash =>
    cases text with
    | nil =>
      -- a `#` at the very end leaves nothing behind it
      cases h
      simp at hrest
    | cons a text =>
      cases h
      rfl
  | digit hd =>
    obtain ⟨hv, rfl⟩ := (start_digit_eq_ok_iff hd).mp h
    obtain ⟨v, -, rfl⟩ := exists_atom_of_ofDigits hv
    have hne : text.dropWhile Char.isDigit ≠ [] := hrest.resolve_right nofun
    rw [← takeWhile_append_of_ne_nil hne more] at hv
    exact (start_digit_eq_ok_iff hd).mpr ⟨hv, dropWhile_append_of_ne_nil hne more⟩
  | stray hs ho hc =>
    rw [start_stray hs ho hc] at h
    cases h
  | name hn =>
    rw [start_name hn] at h ⊢
    cases h
    have hne := hrest.resolve_right nofun
    rw [takeWhile_append_of_ne_nil hne, dropWhile_append_of_ne_nil hne]

theorem start_append_error {c : Char} {text : List Char} {e : ReadError}
    (h : start c text = .error e) (more : List Char) :
    ∃ e', start c (text ++ more) = .error e' ∧ e.SameKind e' := by
  cases Initial.of c with
  | openList | closeList | quote | hash => cases h
  | digit hd =>
    have hv : ofDigits (c :: text.takeWhile Char.isDigit) = .error e :=
      (start_digit_eq_error_iff hd).mp h
    obtain ⟨-, rfl⟩ := ofDigits_eq_error_iff.mp hv
    -- the digits may go on in `more`, and are out of range with those too
    obtain ⟨added, hadded⟩ := exists_takeWhile_append Char.isDigit text more
    have hv' := ofDigits_append_error hv added
    rw [List.cons_append, ← hadded] at hv'
    exact ⟨_, (start_digit_eq_error_iff hd).mpr hv', trivial⟩
  | stray hs ho hc =>
    rw [start_stray hs ho hc] at h ⊢
    cases h
    exact ⟨_, rfl, rfl⟩
  | name hn =>
    rw [start_name hn] at h
    cases h

theorem start_append_newline_error {c : Char} {text : List Char} {e : ReadError}
    (h : start c text = .error e) (more : List Char) :
    start c (text ++ '\n' :: more) = .error e := by
  cases Initial.of c with
  | openList | closeList | quote | hash => cases h
  | digit hd =>
    have hv : ofDigits (c :: text.takeWhile Char.isDigit) = .error e :=
      (start_digit_eq_error_iff hd).mp h
    have hnewline : '\n'.isDigit = false := by decide
    rw [← takeWhile_append_of_neg hnewline text more] at hv
    exact (start_digit_eq_error_iff hd).mpr hv
  | stray hs ho hc =>
    rw [start_stray hs ho hc] at h ⊢
    exact h
  | name hn =>
    rw [start_name hn] at h
    cases h

theorem next_congr {text text' : List Char} (h : skipLayout text = skipLayout text') :
    next text = next text' := by
  rw [next, next, h]

theorem next_eq_none_iff {text : List Char} : next text = .ok none ↔ skipLayout text = [] := by
  cases hskip : skipLayout text with
  | nil => simp [next, hskip]
  | cons c tail => cases hs : start c tail <;> simp [next, hskip, hs, Except.map]

theorem next_eq_some_iff {text rest : List Char} {l : Lexeme} :
    next text = .ok (some (l, rest)) ↔
      ∃ c tail, skipLayout text = c :: tail ∧ start c tail = .ok (l, rest) := by
  cases hskip : skipLayout text with
  | nil => simp [next, hskip]
  | cons c tail => cases hs : start c tail <;> simp [next, hskip, hs, Except.map, and_assoc]

theorem next_eq_error_iff {text : List Char} {e : ReadError} :
    next text = .error e ↔ ∃ c tail, skipLayout text = c :: tail ∧ start c tail = .error e := by
  cases hskip : skipLayout text with
  | nil => simp [next, hskip]
  | cons c tail => cases hs : start c tail <;> simp [next, hskip, hs, Except.map, and_assoc]

/-- What stands in a text is never made up for by more text. -/
theorem isIncomplete_of_next_error {text : List Char} {e : ReadError}
    (h : next text = .error e) : e.isIncomplete = false := by
  obtain ⟨c, tail, -, hs⟩ := next_eq_error_iff.mp h
  cases Initial.of c with
  | openList | closeList | quote | hash => cases hs
  | digit hd =>
    obtain ⟨-, rfl⟩ := ofDigits_eq_error_iff.mp ((start_digit_eq_error_iff hd).mp hs)
    rfl
  | stray hd ho hc =>
    rw [start_stray hd ho hc] at hs
    cases hs
    rfl
  | name hn =>
    rw [start_name hn] at hs
    cases hs

theorem next_append_newline {text rest : List Char} {l : Lexeme}
    (h : next text = .ok (some (l, rest))) (more : List Char) :
    ∃ rest', next (text ++ '\n' :: more) = .ok (some (l, rest')) ∧
      skipLayout rest' = skipLayout (rest ++ '\n' :: more) := by
  obtain ⟨c, tail, hskip, hs⟩ := next_eq_some_iff.mp h
  obtain ⟨rest', hs', hrest⟩ := start_append_newline hs more
  exact ⟨rest', next_eq_some_iff.mpr ⟨c, _, skipLayout_append_of_eq_cons _ hskip, hs'⟩, hrest⟩

theorem next_append_of_ne_nil {text rest : List Char} {l : Lexeme}
    (h : next text = .ok (some (l, rest))) (hrest : rest ≠ [] ∨ l = closeList)
    (more : List Char) : next (text ++ more) = .ok (some (l, rest ++ more)) := by
  obtain ⟨c, tail, hskip, hs⟩ := next_eq_some_iff.mp h
  exact next_eq_some_iff.mpr ⟨c, _, skipLayout_append_of_eq_cons _ hskip,
    start_append_of_ne_nil hs hrest more⟩

theorem next_append_error {text : List Char} {e : ReadError} (h : next text = .error e)
    (more : List Char) : ∃ e', next (text ++ more) = .error e' ∧ e.SameKind e' := by
  obtain ⟨c, tail, hskip, hs⟩ := next_eq_error_iff.mp h
  obtain ⟨e', hs', hkind⟩ := start_append_error hs more
  exact ⟨e', next_eq_error_iff.mpr ⟨c, _, skipLayout_append_of_eq_cons _ hskip, hs'⟩, hkind⟩

theorem next_append_newline_error {text : List Char} {e : ReadError} (h : next text = .error e)
    (more : List Char) : next (text ++ '\n' :: more) = .error e := by
  obtain ⟨c, tail, hskip, hs⟩ := next_eq_error_iff.mp h
  exact next_eq_error_iff.mpr ⟨c, _, skipLayout_append_of_eq_cons _ hskip,
    start_append_newline_error hs more⟩

end Lexeme

end LexicalLisp
