import LexicalLisp.Expr.Basic

/-!
# Outlines

An outline is a text that shows a tree by indentation: one line per node, and the lines of what a
node contains two columns further in. Data and expressions are turned into outlines as trees of
lines, and only `Outline.lines` knows about columns. So no constructor can indent its parts
differently from another, and an outline at a deeper column is the same outline moved to the right.

Some constructs need several lines of equal rank, such as the three parts of a conditional or the
two parentheses of a list; hence a datum and an expression give a list of outlines.
-/

namespace LexicalLisp

/-- A line of text and the outlines that belong under it. -/
inductive Outline where
  | node (line : String) (below : List Outline)
deriving Inhabited

namespace Outline

/-- The columns between a line and the lines under it. -/
def step : Nat := 2

mutual

/-- The lines of an outline that begins at a column, each with its own column. -/
def lines (column : Nat) : Outline → List (Nat × String)
  | node line below => (column, line) :: linesAll (column + step) below

/-- The lines of outlines below one another. -/
def linesAll (column : Nat) : List Outline → List (Nat × String)
  | [] => []
  | o :: rest => lines column o ++ linesAll column rest

end

/-- A line moved to its column, with its end. -/
def lineChars : Nat × String → List Char
  | (column, line) => List.replicate column ' ' ++ line.toList ++ ['\n']

/-- The text of outlines below one another at a column. -/
def render (column : Nat) (outlines : List Outline) : String :=
  String.ofList ((linesAll column outlines).flatMap lineChars)

/-- An outline of a single line. -/
def leaf (line : String) : Outline := node line []

/-- The line of a name. -/
def ofSymbol (name : String) : Outline := leaf ("symbol: " ++ name)

/-- The line of an integer. -/
def ofInteger (value : Fixnum) : Outline := leaf ("integer: " ++ value.render)

/-- The line of a truth value. -/
def ofBool (value : Bool) : Outline := leaf (if value then "boolean: true" else "boolean: false")

/-- A line that shows a parameter list, and the body under it. -/
def ofParams (label : String) (params : List String) (body : List Outline) : Outline :=
  node (label ++ ": (" ++ " ".intercalate params ++ ")") body

end Outline

mutual

/-- The outline of a datum. -/
def Datum.outline : Datum → List Outline
  | .list items => [.node "(" (Datum.outlineAll items), .leaf ")"]
  | .symbol name => [.ofSymbol name]
  | .integer value => [.ofInteger value]
  | .bool value => [.ofBool value]
  | .quote inner => [.node "quote:" (Datum.outline inner)]

/-- The outlines of several data. -/
def Datum.outlineAll : List Datum → List Outline
  | [] => []
  | d :: rest => Datum.outline d ++ Datum.outlineAll rest

end

mutual

/-- The outline of an expression. Arguments stand under a line of their own, which is left out if
there are none. -/
def Expr.outline : Expr → List Outline
  | .literal datum => datum.outline
  | .symbol name => [.ofSymbol name]
  | .definition name value => [.node ("define: " ++ name) (Expr.outline value)]
  | .conditional test yes no =>
    [.node "if:" (Expr.outline test), .node "then:" (Expr.outline yes),
      .node "else:" (Expr.outline no)]
  | .binary op left right =>
    [.node ("binop: " ++ op.symbol) (Expr.outline left ++ Expr.outline right)]
  | .lambda params body => [.ofParams "lambda" params (Expr.outline body)]
  | .call callee [] => [.node "call:" (Expr.outline callee)]
  | .call callee (a :: rest) =>
    [.node "call:"
      (Expr.outline callee ++ [.node "args:" (Expr.outline a ++ Expr.outlineAll rest)])]

/-- The outlines of several expressions. -/
def Expr.outlineAll : List Expr → List Outline
  | [] => []
  | e :: rest => Expr.outline e ++ Expr.outlineAll rest

end

/-- The indented text of a datum. -/
def Datum.pretty (d : Datum) (column : Nat) : String := Outline.render column d.outline

/-- The indented text of an expression. -/
def Expr.pretty (e : Expr) (column : Nat) : String := Outline.render column e.outline

end LexicalLisp
