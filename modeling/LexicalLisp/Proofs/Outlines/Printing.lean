import LexicalLisp.Value

/-!
# The text of an outline

The outlines below one another follow one another in the text, and the text of an outline is its own
line at the column and then what belongs under it, `Outline.step` columns further in
(`Outline.render_node`). So the indented text of a construct is put together from the indented texts
of its parts, and there is one equation for each constructor. The column goes down with the parts:
those of a conditional stand one step further in than its three labels, and the arguments of a call
two steps further in than the call.
-/

namespace LexicalLisp

namespace Outline

theorem linesAll_append (column : Nat) (os os' : List Outline) :
    linesAll column (os ++ os') = linesAll column os ++ linesAll column os' := by
  induction os with
  | nil => rfl
  | cons o os ih => rw [List.cons_append, linesAll, linesAll, ih, List.append_assoc]

/-- The text of a line at a column. -/
def lineText (column : Nat) (line : String) : String := String.ofList (lineChars (column, line))

theorem render_append (column : Nat) (os os' : List Outline) :
    render column (os ++ os') = render column os ++ render column os' := by
  rw [render, linesAll_append, List.flatMap_append, String.ofList_append, render, render]

theorem render_node (column : Nat) (line : String) (below os : List Outline) :
    render column (node line below :: os) =
      lineText column line ++ render (column + step) below ++ render column os := by
  rw [render, linesAll, lines, List.flatMap_append, List.flatMap_cons, String.ofList_append,
    String.ofList_append, lineText, render, render]

theorem render_single (column : Nat) (line : String) (below : List Outline) :
    render column [node line below] = lineText column line ++ render (column + step) below :=
  (render_node column line below []).trans String.append_empty

theorem render_leaf (column : Nat) (line : String) :
    render column [leaf line] = lineText column line :=
  (render_single column line []).trans String.append_empty

theorem render_flatMap {α : Type} (column : Nat) (f : α → List Outline) (as : List α) :
    render column (as.flatMap f) = String.join (as.map fun a ↦ render column (f a)) := by
  induction as with
  | nil => rfl
  | cons a as ih => rw [List.flatMap_cons, render_append, ih, List.map_cons, String.join_cons]

end Outline

open Outline

variable (column : Nat)

namespace Datum

theorem outlineAll_eq_flatMap (ds : List Datum) : outlineAll ds = ds.flatMap outline := by
  induction ds with
  | nil => rfl
  | cons d ds ih => rw [outlineAll, List.flatMap_cons, ih]

theorem pretty_list (items : List Datum) : (list items).pretty column =
    lineText column "(" ++ String.join (items.map (·.pretty (column + step))) ++
      lineText column ")" := by
  rw [pretty, outline, outlineAll_eq_flatMap, render_node, render_flatMap, render_leaf]
  rfl

theorem pretty_symbol (name : String) :
    (symbol name).pretty column = lineText column ("symbol: " ++ name) :=
  render_leaf column _

theorem pretty_integer (value : Fixnum) :
    (integer value).pretty column = lineText column ("integer: " ++ value.render) :=
  render_leaf column _

theorem pretty_bool (value : Bool) : (bool value).pretty column =
    lineText column (if value then "boolean: true" else "boolean: false") :=
  render_leaf column _

theorem pretty_quote (inner : Datum) : (quote inner).pretty column =
    lineText column "quote:" ++ inner.pretty (column + step) :=
  render_single column _ _

end Datum

namespace Expr

theorem outlineAll_eq_flatMap (es : List Expr) : outlineAll es = es.flatMap outline := by
  induction es with
  | nil => rfl
  | cons e es ih => rw [outlineAll, List.flatMap_cons, ih]

/-- The outline of the arguments of a call, which is left out if there are none. -/
def outlineArguments : List Expr → List Outline
  | [] => []
  | args => [.node "args:" (args.flatMap outline)]

theorem outline_call (callee : Expr) (args : List Expr) :
    (call callee args).outline = [.node "call:" (callee.outline ++ outlineArguments args)] := by
  cases args with
  | nil => rw [outline, outlineArguments, List.append_nil]
  | cons a args =>
    rw [outline, outlineArguments, List.flatMap_cons, outlineAll_eq_flatMap]
    exact nofun

theorem pretty_literal (datum : Datum) : (literal datum).pretty column = datum.pretty column := rfl

theorem pretty_symbol (name : String) :
    (symbol name).pretty column = lineText column ("symbol: " ++ name) :=
  render_leaf column _

theorem pretty_definition (name : String) (value : Expr) : (definition name value).pretty column =
    lineText column ("define: " ++ name) ++ value.pretty (column + step) :=
  render_single column _ _

theorem pretty_conditional (test yes no : Expr) : (conditional test yes no).pretty column =
    lineText column "if:" ++ test.pretty (column + step) ++
      lineText column "then:" ++ yes.pretty (column + step) ++
      lineText column "else:" ++ no.pretty (column + step) := by
  rw [pretty, outline, render_node, render_node, render_single]
  simp only [String.append_assoc, pretty]

theorem pretty_binary (op : Operator) (left right : Expr) : (binary op left right).pretty column =
    lineText column ("binop: " ++ op.symbol) ++
      left.pretty (column + step) ++ right.pretty (column + step) := by
  rw [pretty, outline, render_single, render_append]
  simp only [String.append_assoc, pretty]

theorem pretty_lambda (params : List String) (body : Expr) : (lambda params body).pretty column =
    lineText column ("lambda: (" ++ " ".intercalate params ++ ")") ++
      body.pretty (column + step) :=
  render_single column _ _

theorem pretty_call_nil (callee : Expr) : (call callee []).pretty column =
    lineText column "call:" ++ callee.pretty (column + step) :=
  render_single column _ _

theorem pretty_call {args : List Expr} (h : args ≠ []) (callee : Expr) :
    (call callee args).pretty column =
      lineText column "call:" ++ callee.pretty (column + step) ++
        lineText (column + step) "args:" ++
          String.join (args.map (·.pretty (column + step + step))) := by
  rw [pretty, outline_call, outlineArguments, render_single, render_append, render_single,
    render_flatMap]
  · simp only [String.append_assoc, pretty]
  · exact h

example : (conditional (.symbol "c") (.lambda ["x", "y"] (.symbol "y"))
    (.call (.symbol "f") [.literal (.quote (.list []))])).pretty 1 =
    " if:\n   symbol: c\n" ++
    " then:\n   lambda: (x y)\n     symbol: y\n" ++
    " else:\n   call:\n     symbol: f\n     args:\n       quote:\n         (\n         )\n" := by
  decide +kernel

end Expr

namespace Value

theorem pretty_integer (value : Fixnum) :
    (integer value).pretty column = lineText column ("integer: " ++ value.render) :=
  render_leaf column _

theorem pretty_bool (value : Bool) : (bool value).pretty column =
    lineText column (if value then "boolean: true" else "boolean: false") :=
  render_leaf column _

theorem pretty_quoted (datum : Datum) : (quoted datum).pretty column =
    lineText column "quote:" ++ datum.pretty (column + step) :=
  render_single column _ _

theorem pretty_closure (c : Closure) : (closure c).pretty column =
    lineText column ("closure: (" ++ " ".intercalate c.lambda.params ++ ")") ++
      c.lambda.body.pretty (column + step) :=
  render_single column _ _

end Value

end LexicalLisp
