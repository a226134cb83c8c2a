/-!
# Character classes

Three ASCII classes decide where the pieces of a program text begin and end: the spaces that
separate forms, the delimiters that end a name wherever they stand, and the decimal digits
(`Char.isDigit`) that begin an integer. A fourth class, `isBlank`, is the Unicode property
`White_Space`; it is wider than `isSpace` (`isBlank_of_isSpace`) and is used where text comes from a
person's keyboard: for trimming a typed line and for finding the word under a cursor.
-/

namespace LexicalLisp.Text

/-- Space, tab, line feed, form feed or carriage return: the characters that separate forms. -/
def isSpace (c : Char) : Bool :=
  c == ' ' || c == '\t' || c == '\n' || c == '\x0c' || c == '\r'

/-- The characters that end a name or an integer and belong to neither. -/
def isDelimiter (c : Char) : Bool :=
  c == '(' || c == ')' || c == '{' || c == '}' || c == ';'

/-- The characters that a name can go on with. -/
def isNameChar (c : Char) : Bool := !isSpace c && !isDelimiter c

/-- The mark that quotes the datum after it. -/
def quoteMark : Char := '\x27'

/-- The Unicode property `White_Space`. -/
def isBlank (c : Char) : Bool :=
  let n := c.toNat
  (0x09 ≤ n && n ≤ 0x0d) || n == 0x20 || n == 0x85 || n == 0xa0 || n == 0x1680 ||
    (0x2000 ≤ n && n ≤ 0x200a) || n == 0x2028 || n == 0x2029 || n == 0x202f || n == 0x205f ||
    n == 0x3000

theorem isBlank_of_isSpace {c : Char} (h : isSpace c = true) : isBlank c = true := by
  simp only [isSpace, Bool.or_eq_true, beq_iff_eq] at h
  rcases h with (((rfl | rfl) | rfl) | rfl) | rfl <;> decide

/-- The text without the blank characters at its two ends. -/
def trim (text : List Char) : List Char :=
  ((text.dropWhile isBlank).reverse.dropWhile isBlank).reverse

end LexicalLisp.Text
