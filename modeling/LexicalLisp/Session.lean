import LexicalLisp.Datum.Cursor
import LexicalLisp.Eval
import LexicalLisp.Expr.OfDatum

/-!
# Sessions

A session evaluates forms one after another in one frame, its root, so that a definition is seen by
all later forms. Starting over gives the session a new root; closures made before keep the frames
that they captured.

A text is taken item by item. Each item is read, recognised and evaluated before the next one, and
its own fault is the result of the item, whatever stage it comes from. Evaluating a whole text
stops at the first fault; listing the results of its items goes on after it.

Every form is numbered as it enters, and evaluating the same numbered form again evaluates the same
lambdas again.
-/

namespace LexicalLisp

/-- A form that has entered the session. -/
structure Form where
  /-- Its number, which no other form has. -/
  number : Nat
  /-- What to evaluate. -/
  expr : Expr

/-- The operators in force, and the frame in which forms are evaluated. -/
structure Session where
  /-- The operators in force. -/
  operators : OperatorTable
  /-- The frame in which forms are evaluated. -/
  root : FrameId

namespace Session

/-- A session with a new root. -/
def start (operators : OperatorTable) : Action Session := do
  let root ← Action.update (·.newFrame none)
  return ⟨operators, root⟩

/-- The session with a new root in place of the old one. -/
def reset (session : Session) : Action Session := do
  Action.emit .reset
  start session.operators

/-- The expression that a datum spells in the session. -/
def build (session : Session) (d : Datum) : Except Cause Expr :=
  (Expr.ofDatum session.operators d).mapError .malformed

/-- The expression that an item of a text spells. -/
def buildItem (session : Session) (item : Except ReadError Datum) : Except Cause Expr := do
  let d ← item.mapError .unreadable
  session.build d

theorem buildItem_of_ofDatum {session : Session} {d : Datum} {e : Expr}
    (h : Expr.ofDatum session.operators d = .ok e) : session.buildItem (.ok d) = .ok e :=
  congrArg (Except.mapError Cause.malformed) h

theorem buildItem_of_ofDatum_error {session : Session} {d : Datum} {defect : Malformation}
    (h : Expr.ofDatum session.operators d = .error defect) :
    session.buildItem (.ok d) = .error (.malformed defect) :=
  congrArg (Except.mapError Cause.malformed) h

/-- The expressions of a text, without evaluating any. -/
def parse (session : Session) (source : String) : Except Cause (List Expr) :=
  (Datum.items source.toList).mapM session.buildItem

/-- Lets an expression enter the session. -/
def enter (expr : Expr) : Action Form := do
  let number ← Action.update Store.newForm
  return ⟨number, expr⟩

/-- Evaluates a form in the root. -/
def evalForm (session : Session) (depth : Nat) (form : Form) : Action Value := do
  Action.emit (.evaluating form.expr)
  eval depth [form.number] session.root form.expr

/-- Evaluates an expression in the root, as a form of its own. -/
def evalExpr (session : Session) (depth : Nat) (expr : Expr) : Action Value := do
  let form ← enter expr
  session.evalForm depth form

theorem evalForm_apply (session : Session) (depth : Nat) (form : Form) (s : Store) :
    session.evalForm depth form s =
      (eval depth [form.number] session.root form.expr s).map fun r ↦
        { r with events := .evaluating form.expr :: r.events } := by
  rw [evalForm, Action.bind_apply]
  rfl

/-- An expression that enters takes the next number, and then its evaluation is announced by one
event and goes on in the root. -/
theorem evalExpr_apply (session : Session) (depth : Nat) (expr : Expr) (s : Store) :
    session.evalExpr depth expr s =
      (eval depth [s.forms] session.root expr s.newForm.2).map fun r ↦
        { r with events := .evaluating expr :: r.events } := by
  have henter : enter expr s = some ⟨.ok ⟨s.forms, expr⟩, s.newForm.2, []⟩ := rfl
  rw [evalExpr, Action.bind_apply, henter]
  dsimp only
  rw [evalForm_apply, Option.map_map]
  rfl

/-- Evaluates an item of a text. -/
def evalItem (session : Session) (depth : Nat) (item : Except ReadError Datum) : Action Value := do
  let expr ← Action.ofExcept ((session.buildItem item).mapError .ofCause)
  session.evalExpr depth expr

/-- Evaluates items up to the first fault; gives the last value, or the given one if there are
none. -/
def evalItems (session : Session) (depth : Nat) (last : Option Value) :
    List (Except ReadError Datum) → Action Value
  | [] =>
    match last with
    | some v => pure v
    | none => Action.fail (.ofCause (.unreadable .unexpectedEnd))
  | item :: rest => do
    let v ← session.evalItem depth item
    session.evalItems depth (some v) rest

/-- Evaluates a text up to the first fault; gives the value of its last form. -/
def evalString (session : Session) (depth : Nat) (source : String) : Action Value :=
  session.evalItems depth none (Datum.items source.toList)

/-- Evaluates every item, whatever became of the ones before it. -/
def evalEach (session : Session) (depth : Nat) :
    List (Except ReadError Datum) → Action (List (Except Fault Value))
  | [] => pure []
  | item :: rest => do
    let result ← (session.evalItem depth item).attempt
    let results ← session.evalEach depth rest
    return result :: results

/-- The results of all items of a text. -/
def forms (session : Session) (depth : Nat) (source : String) :
    Action (List (Except Fault Value)) :=
  session.evalEach depth (Datum.items source.toList)

/-- Looks a name up in the root. -/
def lookup (session : Session) (name : String) : Action Value := Action.lookup session.root name

/-- Binds a name in the root. -/
def bind (session : Session) (name : String) (v : Value) : Action Unit :=
  Action.bindName session.root name v

end Session

end LexicalLisp
