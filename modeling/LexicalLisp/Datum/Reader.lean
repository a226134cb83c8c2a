import LexicalLisp.Datum.Lexeme
import LexicalLisp.Text.Offset

/-!
# Reading data from text

The reader takes lexemes one after another and keeps, instead of a call stack, the list of what is
open around the place it has reached: lists with the items read so far, and quote marks waiting
for their datum. A finished datum goes to the innermost opening. Quotes close at once around it, a
list takes it as its next item, and with nothing open it is the answer.

Keeping the openings as data makes the two ways of running out of text a property of the place
where the text ended: inside a list the list is unterminated, however many quotes lie between, and
outside every list a datum is missing.
-/

namespace LexicalLisp

/-- Something begun in front of a place of a text and not finished there. -/
inductive Opening where
  /-- A list, with the items read so far, the last one first. -/
  | list (items : List Datum)
  /-- A quote mark. -/
  | quote
deriving DecidableEq

/-- What the reader knows after a lexeme. -/
inductive Progress where
  /-- The datum is finished. -/
  | complete (datum : Datum)
  /-- More lexemes are needed for what is open, innermost first. -/
  | pending (openings : List Opening)

namespace Opening

/-- Hands a finished datum to the innermost opening. -/
def deliver : List Opening → Datum → Progress
  | [], d => .complete d
  | quote :: outer, d => deliver outer (.quote d)
  | list items :: outer, d => .pending (list (d :: items) :: outer)

/-- The effect of a lexeme on what is open. A list is closed only where it is the innermost
opening: not outside every list, and not between a quote mark and its datum. -/
def advance : List Opening → Lexeme → Except ReadError Progress
  | openings, .openList => .ok (.pending (list [] :: openings))
  | openings, .quote => .ok (.pending (quote :: openings))
  | openings, .atom d => .ok (deliver openings d)
  | list items :: outer, .closeList => .ok (deliver outer (.list items.reverse))
  | _, .closeList => .error (.unexpectedChar ')')

/-- The error at the end of a text, by what is open there. -/
def atEnd : List Opening → ReadError
  | [] => .unexpectedEnd
  | quote :: outer => atEnd outer
  | list _ :: _ => .unterminatedList

end Opening

namespace Datum

/-- Reads on until everything that is open and one datum more are finished; gives the datum and
the text behind it. -/
def readWithin (openings : List Opening) (text : List Char) :
    Except ReadError (Datum × List Char) :=
  match _h : Lexeme.next text with
  | .error e => .error e
  | .ok none => .error (Opening.atEnd openings)
  | .ok (some (lexeme, rest)) =>
    match Opening.advance openings lexeme with
    | .error e => .error e
    | .ok (.complete d) => .ok (d, rest)
    | .ok (.pending openings') => readWithin openings' rest
termination_by text.length
decreasing_by exact Lexeme.length_lt_of_next _h

/-- Reads the first datum of a text; gives it and the text behind it. -/
def read (text : List Char) : Except ReadError (Datum × List Char) := readWithin [] text

theorem length_lt_of_readWithin {openings : List Opening} {text rest : List Char} {d : Datum}
    (h : readWithin openings text = .ok (d, rest)) : rest.length < text.length := by
  fun_induction readWithin openings text with
  | case1 => cases h
  | case2 => cases h
  | case3 => cases h
  | case4 openings text lexeme rest' hn d' ha =>
    cases h
    exact Lexeme.length_lt_of_next hn
  | case5 openings text lexeme rest' hn openings' ha ih =>
    exact Nat.lt_trans (ih h) (Lexeme.length_lt_of_next hn)

theorem length_lt_of_read {text rest : List Char} {d : Datum} (h : read text = .ok (d, rest)) :
    rest.length < text.length :=
  length_lt_of_readWithin h

/-- Reads the datum that begins at or behind a byte offset, and gives the offset behind it. Beyond
the end of the text nothing begins. The result is `none` if the offset lies inside a character:
no text begins there. -/
def readAt (text : List Char) (offset : Nat) : Option (Except ReadError (Datum × Nat)) :=
  if Text.byteLength text ≤ offset then some (.error .unexpectedEnd)
  else
    (Text.splitAt? offset text).map fun (_, after) ↦
      (read after).map fun (d, rest) ↦ (d, Text.byteLength text - Text.byteLength rest)

end Datum

end LexicalLisp
