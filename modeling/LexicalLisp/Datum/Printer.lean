import LexicalLisp.Datum.Basic
import LexicalLisp.Text.Class

/-!
# One-line text of data

The text of a datum is the one a reader takes back: items between parentheses with one space
between neighbours, a quote mark in front of what it quotes, `#t` and `#f` for the truth values.
It is built as a list of characters, the form in which the reader consumes it, and packed into a
string only at the end.
-/

namespace LexicalLisp.Datum

mutual

/-- The characters of a datum. -/
def chars : Datum → List Char
  | .list items => '(' :: (charsSpaced items ++ [')'])
  | .symbol name => name.toList
  | .integer value => value.chars
  | .bool value => ['#', if value then 't' else 'f']
  | .quote inner => Text.quoteMark :: chars inner

/-- The characters of a sequence of data, one space between neighbours. -/
def charsSpaced : List Datum → List Char
  | [] => []
  | [d] => chars d
  | d :: rest => chars d ++ ' ' :: charsSpaced rest

end

/-- The one-line text of a datum. -/
def render (d : Datum) : String := String.ofList d.chars

theorem charsSpaced_cons_cons (d d' : Datum) (items : List Datum) :
    charsSpaced (d :: d' :: items) = d.chars ++ ' ' :: charsSpaced (d' :: items) := by
  rw [charsSpaced]
  exact nofun

theorem charsSpaced_eq_intercalate (items : List Datum) :
    charsSpaced items = [' '].intercalate (items.map chars) := by
  induction items with
  | nil => rfl
  | cons d items ih =>
    cases items with
    | nil => exact List.intercalate_singleton.symm
    | cons d' items =>
      rw [charsSpaced_cons_cons, ih, List.append_cons]
      exact (List.intercalate_cons_of_ne_nil (List.cons_ne_nil _ _)).symm

theorem render_list (items : List Datum) :
    (list items).render = "(" ++ " ".intercalate (items.map render) ++ ")" := by
  have hchars : (items.map render).map String.toList = items.map chars := by
    rw [List.map_map]
    exact List.map_congr_left fun d _ ↦ String.toList_ofList
  rw [← String.toList_inj, String.toList_append, String.toList_append, String.toList_intercalate,
    hchars, render, String.toList_ofList, chars, charsSpaced_eq_intercalate]
  rfl

theorem render_symbol (name : String) : (symbol name).render = name := String.ofList_toList

end LexicalLisp.Datum
