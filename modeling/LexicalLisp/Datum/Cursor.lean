import LexicalLisp.Datum.Reader

/-!
# The data of a text, one after another

A cursor stands in a text and moves from datum to datum. It ends at the end of the text, and it
jumps there on an error, because nothing tells where the next datum after a malformed one would
begin. So the items of a text are data followed by at most one error.
-/

namespace LexicalLisp

/-- A place in a text. -/
structure Cursor where
  /-- The number of bytes passed. -/
  position : Nat
  /-- The text ahead. -/
  rest : List Char

namespace Cursor

/-- The cursor in front of a text. -/
def start (text : List Char) : Cursor := ⟨0, text⟩

/-- The cursor moved forward to where only `rest` is ahead. -/
def advanceTo (c : Cursor) (rest : List Char) : Cursor :=
  ⟨c.position + (Text.byteLength c.rest - Text.byteLength rest), rest⟩

/-- Moves over the next datum. There is none if only layout is ahead; then, and after an error,
the cursor is at the end. -/
def next (c : Cursor) : Option (Except ReadError Datum) × Cursor :=
  match skipLayout c.rest with
  | [] => (none, c.advanceTo [])
  | text =>
    match Datum.read text with
    | .ok (d, rest) => (some (.ok d), c.advanceTo rest)
    | .error e => (some (.error e), c.advanceTo [])

end Cursor

namespace Datum

/-- The data of a text in order, with the error that ends them if there is one. -/
def items (text : List Char) : List (Except ReadError Datum) :=
  match skipLayout text with
  | [] => []
  | _ =>
    match _h : read text with
    | .error e => [.error e]
    | .ok (d, rest) => .ok d :: items rest
termination_by text.length
decreasing_by exact length_lt_of_read _h

/-- All data of a text, unless one of them cannot be read. -/
def readAll (text : List Char) : Except ReadError (List Datum) :=
  (items text).mapM id

end Datum

end LexicalLisp
