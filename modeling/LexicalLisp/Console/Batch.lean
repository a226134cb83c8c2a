import LexicalLisp.Session

/-!
# Running a text

The forms of a text are run in order: what the options ask for is shown, the form is evaluated, and
its value is shown or its fault reported. Unless told to keep going, a run stops at the first
fault. A run succeeds if no form had one.

Everything that is put out goes into a transcript, in order, so that a run is a value like any
other. What is shown is the program's output proper, reports are for the person at the terminal,
and events are for whoever watches the interpreter at work.
-/

namespace LexicalLisp.Console

/-- What to show and when to stop. -/
structure Options where
  /-- Show each datum before it is recognised. -/
  showTokens : Bool
  /-- Show each expression before it is evaluated. -/
  showAst : Bool
  /-- Show values as outlines. -/
  pretty : Bool
  /-- Go on after a fault. -/
  keepGoing : Bool
  /-- How many levels of events to show. -/
  verbosity : Nat
deriving DecidableEq

/-- A piece of what a run puts out. -/
inductive Output where
  /-- Output proper. -/
  | shown (text : String)
  /-- The report of a fault. -/
  | report (text : String)
  /-- Something that happened inside. -/
  | event (event : Event)
deriving DecidableEq

namespace Output

/-- The text for the standard output. -/
def shownText? : Output → Option String
  | shown text => some text
  | _ => none

/-- The text of a report. -/
def reportText? : Output → Option String
  | report text => some text
  | _ => none

end Output

/-- Whether an event is of interest at a verbosity. -/
def Options.watches (o : Options) (event : Event) : Bool :=
  match event.level with
  | .debug => 1 ≤ o.verbosity
  | .trace => 2 ≤ o.verbosity

/-- The events of interest. -/
def Options.watched (o : Options) (events : List Event) : List Output :=
  (events.filter o.watches).map .event

/-- A value as the options want it shown. -/
def Options.valueText (o : Options) (v : Value) : String :=
  if o.pretty then v.pretty 0 else v.render ++ "\n"

/-- What is shown of an item before it is evaluated: the datum if it was read, and the expression
if it was recognised. -/
def Options.preview (o : Options) (session : Session) (item : Except ReadError Datum) :
    List Output :=
  match item with
  | .error _ => []
  | .ok d =>
    (if o.showTokens then [.shown (d.pretty 0)] else []) ++
      match session.build d with
      | .error _ => []
      | .ok expr => if o.showAst then [.shown (expr.pretty 0)] else []

/-- What is shown of the result of an item. -/
def Options.resultOutput (o : Options) : Except Fault Value → Output
  | .ok v => .shown (o.valueText v)
  | .error fault => .report fault.report

/-- What a run leaves behind. -/
structure Batch where
  /-- Whether no form had a fault. -/
  success : Bool
  /-- What was put out. -/
  transcript : List Output
  /-- The store at the end. -/
  store : Store

/-- Runs items one after another. The result is `none` if the depth does not suffice. -/
def runItems (depth : Nat) (o : Options) (session : Session) :
    List (Except ReadError Datum) → Store → Option Batch
  | [], store => some ⟨true, [], store⟩
  | item :: rest, store =>
    match session.evalItem depth item store with
    | none => none
    | some run =>
      let transcript :=
        o.preview session item ++ o.watched run.events ++ [o.resultOutput run.result]
      if run.result.isOk || o.keepGoing then
        match runItems depth o session rest run.store with
        | none => none
        | some batch =>
          some ⟨run.result.isOk && batch.success, transcript ++ batch.transcript, batch.store⟩
      else some ⟨false, transcript, run.store⟩

/-- Runs the forms of a text. -/
def runText (depth : Nat) (o : Options) (session : Session) (text : List Char) (store : Store) :
    Option Batch :=
  runItems depth o session (Datum.items text) store

end LexicalLisp.Console
