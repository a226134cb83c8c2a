import LexicalLisp.Datum.Basic
import LexicalLisp.Datum.ReadError
import LexicalLisp.Text.Class

/-!
# Lexemes

A program text is a sequence of lexemes with layout between them. Layout is space characters and
comments, a comment running from a semicolon to the end of its line. Parentheses and the quote
mark are lexemes of their own; all others denote a datum without parts:

* a run of digits, as long as possible, is an integer;
* `#` takes the next character with it, whatever it is, and is true only before `t`;
* anything else that is not a delimiter is a name, as long as possible. Digits, `#` and the quote
  mark cannot begin a name but may occur in it.

`Lexeme.next` splits the first lexeme off a text and is the only place where characters are looked
at; what it leaves is shorter than the text it was given (`Lexeme.length_lt_of_next`).
-/

namespace LexicalLisp

mutual

/-- The text without the layout in front of it. -/
def skipLayout : List Char → List Char
  | [] => []
  | c :: rest =>
    if Text.isSpace c then skipLayout rest
    else if c == ';' then skipComment rest
    else c :: rest

/-- The text after a comment has begun, without the comment and the layout behind it. -/
def skipComment : List Char → List Char
  | [] => []
  | c :: rest => if c == '\n' then skipLayout rest else skipComment rest

end

mutual

theorem length_skipLayout_le : ∀ text : List Char, (skipLayout text).length ≤ text.length
  | [] => by simp [skipLayout]
  | c :: rest => by
    have h₁ := length_skipLayout_le rest
    have h₂ := length_skipComment_le rest
    simp only [skipLayout, List.length_cons]
    split
    · omega
    · split
      · omega
      · simp

private theorem length_skipComment_le : ∀ text : List Char,
    (skipComment text).length ≤ text.length
  | [] => by simp [skipComment]
  | c :: rest => by
    have h₁ := length_skipLayout_le rest
    have h₂ := length_skipComment_le rest
    simp only [skipComment, List.length_cons]
    split <;> omega

end

/-- The smallest pieces of a program text. -/
inductive Lexeme where
  /-- An opening parenthesis. -/
  | openList
  /-- A closing parenthesis. -/
  | closeList
  /-- A quote mark. -/
  | quote
  /-- The text of a datum without parts. -/
  | atom (datum : Datum)
deriving DecidableEq

namespace Lexeme

/-- The lexeme of a run of digits, if the integer is in range. -/
def ofDigits (digits : List Char) : Except ReadError Lexeme :=
  (Fixnum.ofInt? (Nat.ofDigitChars 10 digits 0)).elim
    (.error (.integerOverflow (String.ofList digits))) fun value ↦ .ok (.atom (.integer value))

/-- The truth value after a `#`, which takes the next character with it if there is one. -/
def afterHash : List Char → Lexeme × List Char
  | [] => (atom (.bool false), [])
  | c :: rest => (atom (.bool (c == 't')), rest)

/-- The lexeme that begins with a character outside layout, and the text behind it. -/
def start (c : Char) (rest : List Char) : Except ReadError (Lexeme × List Char) :=
  if c = '(' then .ok (openList, rest)
  else if c = ')' then .ok (closeList, rest)
  else if c = Text.quoteMark then .ok (quote, rest)
  else if c = '#' then .ok (afterHash rest)
  else if c.isDigit then
    match ofDigits (c :: rest.takeWhile Char.isDigit) with
    | .ok lexeme => .ok (lexeme, rest.dropWhile Char.isDigit)
    | .error e => .error e
  else if Text.isDelimiter c then .error (.unexpectedChar c)
  else
    .ok (atom (.symbol (String.ofList (c :: rest.takeWhile Text.isNameChar))),
      rest.dropWhile Text.isNameChar)

/-- Splits the first lexeme off a text; there is none if only layout is left. -/
def next (text : List Char) : Except ReadError (Option (Lexeme × List Char)) :=
  match skipLayout text with
  | [] => .ok none
  | c :: rest => (start c rest).map some

private theorem length_dropWhile_le (p : Char → Bool) (text : List Char) :
    (text.dropWhile p).length ≤ text.length :=
  (List.dropWhile_sublist p).length_le

/-- After its first character a lexeme only takes more of the text. -/
theorem length_le_of_start {c : Char} {text rest : List Char} {lexeme : Lexeme}
    (h : start c text = .ok (lexeme, rest)) : rest.length ≤ text.length := by
  unfold start at h
  split at h
  · cases h; exact Nat.le_refl _
  split at h
  · cases h; exact Nat.le_refl _
  split at h
  · cases h; exact Nat.le_refl _
  split at h
  · cases text <;> cases h <;> simp
  split at h
  · split at h <;> cases h
    exact length_dropWhile_le _ _
  split at h
  · cases h
  · cases h; exact length_dropWhile_le _ _

theorem length_lt_of_next {text rest : List Char} {lexeme : Lexeme}
    (h : next text = .ok (some (lexeme, rest))) : rest.length < text.length := by
  refine Nat.lt_of_lt_of_le ?_ (length_skipLayout_le text)
  unfold next at h
  split at h
  · cases h
  · rename_i c tail heq
    cases hs : start c tail with
    | error e => simp [hs, Except.map] at h
    | ok found =>
      obtain rfl : found = (lexeme, rest) := by simpa [hs, Except.map] using h
      have := length_le_of_start hs
      rw [heq, List.length_cons]
      omega

end Lexeme

end LexicalLisp
