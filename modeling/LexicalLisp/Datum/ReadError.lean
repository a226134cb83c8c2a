/-!
# Why a text cannot be read

Two of the four causes say that the text is wrong where it stands, and two that it stopped too
early. `ReadError.isIncomplete` separates them: a person typing a form over several lines is asked
for another line exactly in the second case.
-/

namespace LexicalLisp

/-- The causes for which no datum can be read at a place of a text. -/
inductive ReadError where
  /-- A delimiter stands where a datum has to begin. -/
  | unexpectedChar (c : Char)
  /-- A run of digits denotes an integer out of range. -/
  | integerOverflow (digits : String)
  /-- The text ended before a datum began. -/
  | unexpectedEnd
  /-- The text ended inside a list. -/
  | unterminatedList
deriving DecidableEq

namespace ReadError

/-- Whether more text could still make the reading succeed. -/
def isIncomplete : ReadError → Bool
  | unexpectedEnd | unterminatedList => true
  | unexpectedChar _ | integerOverflow _ => false

/-- The text of a read error. -/
def message : ReadError → String
  | unexpectedChar c => s!"Unexpected character '{c}'"
  | integerOverflow digits => s!"Integer overflow: {digits}"
  | unexpectedEnd => "Unexpected end of input"
  | unterminatedList => "Unterminated list: missing ')'"

end ReadError

end LexicalLisp
