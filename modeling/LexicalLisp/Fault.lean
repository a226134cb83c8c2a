import LexicalLisp.Expr.Malformation
import LexicalLisp.Datum.ReadError

/-!
# Faults

A fault is what goes wrong with a form, at any stage: it cannot be read, it is no form, or its
evaluation fails. The cause says what happened, and the trail says where: the texts of the calls
and definitions under evaluation, innermost first. A fault starts with an empty trail, and each
form that it leaves adds its text.

The report of a fault shows the trail from the outside in, one line for each text. Long lines are
cut, so that a report stays readable whatever the size of the program.
-/

namespace LexicalLisp

/-- What went wrong. -/
inductive Cause where
  /-- The text is not that of a datum. -/
  | unreadable (error : ReadError)
  /-- The datum is not the spelling of an expression. -/
  | malformed (defect : Malformation)
  /-- A closure was called with the wrong number of arguments. -/
  | arity (expected found : Nat)
  /-- A division by zero. -/
  | divisionByZero
  /-- The result of an operation is out of range. -/
  | integerOverflow (operation : String)
  /-- Something other than a closure was called. -/
  | notCallable (shown : String)
  /-- An operand of the wrong type. -/
  | typeMismatch (explanation : String)
  /-- A name without a binding. -/
  | unbound (name : String)
  /-- A file could not be read. -/
  | file (problem : String)
  /-- No line could be read. -/
  | lineInput (problem : String)
deriving DecidableEq

namespace Cause

/-- The text of a cause. -/
def message : Cause → String
  | unreadable error => error.message
  | malformed defect => "Syntax Error: " ++ defect.message
  | arity expected found => s!"Arity Error: expected {expected} argument(s) but got {found}"
  | divisionByZero => "Division by zero"
  | integerOverflow operation => "Integer overflow: " ++ operation
  | notCallable shown => "Not callable: " ++ shown
  | typeMismatch explanation => "Type Error: " ++ explanation
  | unbound name => "Unbound symbol: " ++ name
  | file problem => "IO Error: " ++ problem
  | lineInput problem => "Readline Error: " ++ problem

/-- Whether more text could still mend the matter. -/
def isIncomplete : Cause → Bool
  | unreadable error => error.isIncomplete
  | _ => false

end Cause

/-- A cause with the forms that were under evaluation. -/
structure Fault where
  /-- What went wrong. -/
  cause : Cause
  /-- The texts of the forms under evaluation, innermost first. -/
  trail : List String
deriving DecidableEq

namespace Fault

/-- A fault outside every form. -/
def ofCause (cause : Cause) : Fault := ⟨cause, []⟩

/-- The fault as it leaves a form with this text. -/
def inside (fault : Fault) (text : String) : Fault := ⟨fault.cause, fault.trail ++ [text]⟩

/-- A text of more than 75 characters, cut to its first 70. -/
def shorten (text : String) : String :=
  if text.length > 75 then String.ofList (text.toList.take 70) ++ " ..." else text

/-- The trail from the outside in, under a heading. -/
def trailText (trail : List String) : String :=
  match trail with
  | [] => ""
  | _ => "Context:\n" ++ String.join (trail.reverse.map fun text ↦ "    " ++ shorten text ++ "\n")

/-- The report of a fault: its trail, if there is one, and the text of its cause. -/
def report (fault : Fault) : String := trailText fault.trail ++ fault.cause.message

end Fault

end LexicalLisp
