import LexicalLisp.Outline

/-!
# Values

A value is an integer, a truth value, a quoted datum or a closure. A closure pairs a lambda with
the frame it was made in, and frames are known by number, so values are plain data.

Two closures are the same when they come from the same lambda and captured the same frame. The
same lambda means the same place in the same program, and not lambdas of equal text: evaluating
one form twice makes equal closures, writing it twice does not. So a lambda that has been
evaluated carries its place, a `Site`: the number of the form it stands in and the way down to it.
The numbers are given out by the store, a new one for each form that enters the session.
-/

namespace LexicalLisp

/-- A place in the program: the way from the innermost step outwards to the number of a form. -/
abbrev Site := List Nat

/-- The number of a frame in the store. -/
abbrev FrameId := Nat

/-- A lambda of the running program. -/
structure Lambda where
  /-- Where it stands. -/
  site : Site
  /-- Its parameters. -/
  params : List String
  /-- Its body. -/
  body : Expr
deriving DecidableEq

namespace Lambda

/-- The number of arguments it takes. -/
def arity (l : Lambda) : Nat := l.params.length

/-- The text of a lambda that has become a value. -/
def render (l : Lambda) : String := "#<closure (" ++ " ".intercalate l.params ++ ")>"

end Lambda

/-- A lambda with the frame in which its free names are looked up. -/
structure Closure where
  /-- What to do. -/
  lambda : Lambda
  /-- Where it was made. -/
  frame : FrameId
deriving DecidableEq

/-- Closures are the same if they stand at the same place and captured the same frame. -/
def Closure.same (a b : Closure) : Bool := a.lambda.site == b.lambda.site && a.frame == b.frame

/-- What evaluation gives. -/
inductive Value where
  | integer (value : Fixnum)
  | bool (value : Bool)
  /-- A datum carried along without being looked at. -/
  | quoted (datum : Datum)
  | closure (closure : Closure)
deriving DecidableEq

namespace Value

/-- `#f` and `0` are false, and every other value is true. -/
def isTrue : Value → Bool
  | bool value => value
  | integer value => value ≠ Fixnum.zero
  | quoted _ | closure _ => true

/-- The equality of values. -/
def same : Value → Value → Bool
  | integer a, integer b => a == b
  | bool a, bool b => a == b
  | quoted a, quoted b => a == b
  | closure a, closure b => a.same b
  | _, _ => false

/-- The name of the type of a value. -/
def typeName : Value → String
  | integer _ => "integer"
  | bool _ => "boolean"
  | quoted _ => "quote"
  | closure _ => "closure"

/-- The one-line text of a value. -/
def render : Value → String
  | integer value => (Datum.integer value).render
  | bool value => (Datum.bool value).render
  | quoted datum => (Datum.quote datum).render
  | closure c => c.lambda.render

/-- The outline of a value. -/
def outline : Value → List Outline
  | integer value => [.ofInteger value]
  | bool value => [.ofBool value]
  | quoted datum => [.node "quote:" datum.outline]
  | closure c => [.ofParams "closure" c.lambda.params c.lambda.body.outline]

/-- The indented text of a value. -/
def pretty (v : Value) (column : Nat) : String := Outline.render column v.outline

end Value

end LexicalLisp
