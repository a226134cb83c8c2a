import LexicalLisp.Datum.Printer
import LexicalLisp.Operator

/-!
# Why a datum is no form

Each cause keeps what its message shows: how many parts there were, or the datum that stood in the
wrong place.
-/

namespace LexicalLisp

/-- The causes for which a datum is not the spelling of an expression. -/
inductive Malformation where
  /-- An empty list has no head. -/
  | emptyCombination
  /-- An operator takes two operands. -/
  | operandCount (op : Operator) (found : Nat)
  /-- A definition takes a name and a form. -/
  | definitionCount (found : Nat)
  /-- What a definition binds is a symbol. -/
  | definitionName (found : Datum)
  /-- A conditional takes three forms. -/
  | conditionalCount (found : Nat)
  /-- A lambda takes a parameter list and a body. -/
  | lambdaCount (found : Nat)
  /-- The parameters of a lambda are a list. -/
  | parameterList (found : Datum)
  /-- A parameter is a symbol. -/
  | parameterName (found : Datum)
  /-- A literal is an integer, a truth value or a quoted datum. -/
  | literal (found : Datum)
  /-- A cause in words of its own. -/
  | other (reason : String)
deriving DecidableEq

/-- The text of a malformation. -/
def Malformation.message : Malformation → String
  | emptyCombination => "empty combination ()"
  | operandCount op found => s!"({op.symbol} a b) takes exactly two operands, got {found}"
  | definitionCount found => s!"(define name exp) takes exactly two forms, got {found}"
  | definitionName found => s!"(define name exp) needs a symbol as name, got {found.render}"
  | conditionalCount found => s!"(if cond iftrue iffalse) takes exactly three forms, got {found}"
  | lambdaCount found =>
    s!"(lambda (params...) body) takes a parameter list and one body form, got {found} form(s)"
  | parameterList found => s!"(lambda (params...) body) needs a parameter list, got {found.render}"
  | parameterName found => s!"lambda parameter must be a symbol, got {found.render}"
  | literal found => s!"not a self-evaluating literal: {found.render}"
  | other reason => reason

end LexicalLisp
