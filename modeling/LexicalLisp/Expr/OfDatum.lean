import LexicalLisp.Expr.Basic
import LexicalLisp.Expr.Malformation

/-!
# Recognising forms

A datum is recognised from outside in and from left to right, and the first list without the shape
that its head asks for decides the malformation. Counting comes before anything inside is looked
at, a parameter list before the body behind it. What a quote holds and what a parameter list holds
is never a form.
-/

namespace LexicalLisp

/-- The names in a parameter list. -/
def Datum.parameterNames : List Datum → Except Malformation (List String)
  | [] => .ok []
  | .symbol name :: rest => (parameterNames rest).map (name :: ·)
  | found :: _ => .error (.parameterName found)

namespace Expr

mutual

/-- The expression that a datum spells under a table of operators. -/
def ofDatum (table : OperatorTable) : Datum → Except Malformation Expr
  | .symbol name => .ok (.symbol name)
  | .integer value => .ok (.literal (.integer value))
  | .bool value => .ok (.literal (.bool value))
  | .quote inner => .ok (.literal (.quote inner))
  | .list items => ofItems table items

/-- The expression that a list with these items spells. -/
def ofItems (table : OperatorTable) : List Datum → Except Malformation Expr
  | [] => .error .emptyCombination
  | .symbol name :: parts =>
    match table.classify name with
    | .operator op =>
      match parts with
      | [left, right] => do
        let left ← ofDatum table left
        let right ← ofDatum table right
        return .binary op left right
      | parts => .error (.operandCount op parts.length)
    | .keyword .define =>
      match parts with
      | [.symbol name, value] => return .definition name (← ofDatum table value)
      | [found, _] => .error (.definitionName found)
      | parts => .error (.definitionCount parts.length)
    | .keyword .conditional =>
      match parts with
      | [test, yes, no] => do
        let test ← ofDatum table test
        let yes ← ofDatum table yes
        let no ← ofDatum table no
        return .conditional test yes no
      | parts => .error (.conditionalCount parts.length)
    | .keyword .lambda =>
      match parts with
      | [.list params, body] => do
        let params ← Datum.parameterNames params
        let body ← ofDatum table body
        return .lambda params body
      | [found, _] => .error (.parameterList found)
      | parts => .error (.lambdaCount parts.length)
    | .ordinary => return .call (.symbol name) (← ofAll table parts)
  | head :: args => do
    let callee ← ofDatum table head
    let args ← ofAll table args
    return .call callee args

/-- The expressions that a list of data spells, one by one. -/
def ofAll (table : OperatorTable) : List Datum → Except Malformation (List Expr)
  | [] => .ok []
  | d :: rest => do
    let e ← ofDatum table d
    let es ← ofAll table rest
    return e :: es

end

end Expr

end LexicalLisp
