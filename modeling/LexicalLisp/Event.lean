import LexicalLisp.Value

/-!
# Events

What an evaluation does is observable from outside through its events: which forms are started,
which closures are called and which names are bound, in the order in which it happens. An event
keeps the things it is about; their texts are made only when it is shown.
-/

namespace LexicalLisp

/-- Something that happened. -/
inductive Event where
  /-- A form of the session is about to be evaluated. -/
  | evaluating (form : Expr)
  /-- A closure is about to run on the right number of arguments. -/
  | call (closure : Closure) (count : Nat)
  /-- A name is about to be bound. -/
  | bind (name : String) (value : Value)
  /-- The session starts over. -/
  | reset
deriving DecidableEq

/-- How detailed a view an event belongs to. -/
inductive Event.Level where
  | debug | trace
deriving DecidableEq

namespace Event

/-- Steps of a session are coarse events, steps within a form fine ones. -/
def level : Event → Level
  | evaluating _ | reset => .debug
  | call .. | bind .. => .trace

/-- What happened, in words. -/
def message : Event → String
  | evaluating _ => "eval"
  | call .. => "call"
  | bind .. => "bind"
  | reset => "resetting root environment"

/-- What it happened to: texts under the names of their roles. -/
def fields : Event → List (String × String)
  | evaluating form => [("form", form.render)]
  | call closure count => [("closure", closure.lambda.render), ("nargs", toString count)]
  | bind name value => [("name", name), ("value", value.render)]
  | reset => []

/-- The name of a level. -/
def Level.name : Level → String
  | debug => "DEBUG"
  | trace => "TRACE"

/-- An event as a line of a log. -/
def render (event : Event) : String :=
  event.level.name ++ " " ++ event.message ++
    String.join (event.fields.map fun (role, text) ↦ " " ++ role ++ "=" ++ text)

end Event

end LexicalLisp
