import LexicalLisp.Fault
import LexicalLisp.Value

/-!
# Arithmetic

An operator takes two integers. The sum, the difference, the product and the quotient are those of
the unbounded integers, the quotient rounded toward zero, and a result that is no fixnum is a fault
rather than a wrapped number. A comparison gives a truth value.

Both operands are at hand before either is looked at, and the left one is looked at first. Only a
wrong type adds the operator to the trail.
-/

namespace LexicalLisp

/-- The integer that a value is. -/
def Value.asInteger : Value → Except Cause Fixnum
  | integer value => .ok value
  | v => .error (.typeMismatch s!"expected integer, got {v.typeName} {v.render}")

namespace Operator

/-- An exact result, if it is in range. -/
def checked (op : Operator) (a b : Fixnum) (exact : Int) : Except Cause Value :=
  match Fixnum.ofInt? exact with
  | some value => .ok (.integer value)
  | none => .error (.integerOverflow s!"({op.symbol} {a.render} {b.render})")

/-- The result of an operator on two integers. -/
def compute (op : Operator) (a b : Fixnum) : Except Cause Value :=
  match op with
  | add => op.checked a b (a.val + b.val)
  | sub => op.checked a b (a.val - b.val)
  | mul => op.checked a b (a.val * b.val)
  | div => if b.val = 0 then .error .divisionByZero else op.checked a b (a.val.tdiv b.val)
  | greater => .ok (.bool (b.val < a.val))
  | less => .ok (.bool (a.val < b.val))
  | equal => .ok (.bool (a.val = b.val))

/-- The integer that an operand is. -/
def operand (op : Operator) (v : Value) : Except Fault Fixnum :=
  v.asInteger.mapError fun cause ↦ (Fault.ofCause cause).inside ("operator " ++ op.symbol)

/-- The result of an operator on two values. -/
def apply (op : Operator) (left right : Value) : Except Fault Value := do
  let a ← op.operand left
  let b ← op.operand right
  (op.compute a b).mapError .ofCause

end Operator

end LexicalLisp
