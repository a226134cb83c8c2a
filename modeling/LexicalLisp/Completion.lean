import LexicalLisp.Operator
import LexicalLisp.Store
import LexicalLisp.Text.Offset

/-!
# Completing the word under a cursor

What can stand at a place of a line is a keyword, an operator or a bound name. The word in front of
the cursor begins behind the last separator, and the candidates are the names that begin with it.

The word's beginning is counted as one byte behind the separator's first byte. Behind a separator
of several bytes no character begins there, and then there is no completion, just as there is none
for a cursor inside a character or beyond the line.
-/

namespace LexicalLisp

/-- What a cursor can be completed to. -/
structure Completion where
  /-- The byte offset at which the word begins. -/
  start : Nat
  /-- What the word can become, ascending. -/
  candidates : List String
deriving DecidableEq

namespace Completion

/-- The characters that a word does not contain. -/
def isSeparator (c : Char) : Bool :=
  Text.isBlank c || Text.isDelimiter c || c == Text.quoteMark

/-- The byte offset behind the first byte of the last separator, or zero without one. -/
def wordStart (before : List Char) : Nat :=
  match before.reverse.dropWhile (!isSeparator ·) with
  | [] => 0
  | _ :: outer => Text.byteLength outer + 1

/-- All names that can be used in a frame. -/
def names (table : OperatorTable) (store : Store) (f : FrameId) : List String :=
  Keyword.all.map Keyword.word ++ table.symbols ++ store.keys f

/-- The usable names that begin with a word, ascending and each once. -/
def candidatesFor (table : OperatorTable) (store : Store) (f : FrameId) (word : List Char) :
    List String :=
  (((names table store f).filter fun name ↦ word.isPrefixOf name.toList).mergeSort
    fun a b ↦ decide (a ≤ b)).eraseReps

/-- Completes the word in front of a byte offset of a line. -/
def complete? (table : OperatorTable) (store : Store) (f : FrameId) (line : List Char)
    (offset : Nat) : Option Completion := do
  let (before, _) ← Text.splitAt? offset line
  let start := wordStart before
  let (_, word) ← Text.splitAt? start before
  return ⟨start, candidatesFor table store f word⟩

end Completion

end LexicalLisp
