import LexicalLisp.Action
import LexicalLisp.Arithmetic

/-!
# Evaluation

An expression is evaluated in a frame. Parts are evaluated from left to right, and a conditional
evaluates only the branch it takes. A call evaluates the callee, makes sure that it is a closure,
and only then evaluates the arguments. The closure runs in a new frame, the child of the frame it
captured, and so the caller's frame has no influence on it.

The first argument is the depth: evaluations nested deeper are given up. Every evaluation that
ends at all ends at some depth, and more depth does not change how it ends (`eval_refines`).

The second argument is the site of the expression, which the lambdas in it take along. The parts
of a form are numbered from the left, and the body of a lambda is part zero of it.
-/

namespace LexicalLisp

/-- The value of a literal. -/
def Value.ofLiteral : Datum → Except Cause Value
  | .integer value => .ok (integer value)
  | .bool value => .ok (bool value)
  | .quote inner => .ok (quoted inner)
  | d => .error (.malformed (.literal d))

/-- The closure that a value is. -/
def Value.asClosure : Value → Except Cause Closure
  | closure c => .ok c
  | v => .error (.notCallable v.render)

/-- Evaluates expressions from left to right, the first of them being part `i` of its form. -/
def evalAll (evalPart : Nat → Expr → Action Value) (i : Nat) : List Expr → Action (List Value)
  | [] => pure []
  | e :: rest => do
    let v ← evalPart i e
    let vs ← evalAll evalPart (i + 1) rest
    return v :: vs

/-- Runs a closure on arguments, with a given way to evaluate its body. -/
def Closure.runWith (evalBody : Site → FrameId → Expr → Action Value) (c : Closure)
    (args : List Value) : Action Value := do
  if args.length ≠ c.lambda.arity then
    Action.fail (.ofCause (.arity c.lambda.arity args.length))
  else
    Action.emit (.call c args.length)
    let f ← Action.update fun s ↦ s.newFrame (some c.frame)
    Action.bindAll f (c.lambda.params.zip args)
    evalBody (0 :: c.lambda.site) f c.lambda.body

/-- Evaluates an expression at a site in a frame. -/
def eval : Nat → Site → FrameId → Expr → Action Value
  | 0, _, _, _ => Action.unfinished
  | depth + 1, site, f, e =>
    match e with
    | .literal datum => Action.ofExcept ((Value.ofLiteral datum).mapError .ofCause)
    | .symbol name => Action.lookup f name
    | .definition name value => do
      let v ← Action.within e (eval depth (0 :: site) f value)
      Action.bindName f name v
      return v
    | .conditional test yes no => do
      let v ← eval depth (0 :: site) f test
      if v.isTrue then eval depth (1 :: site) f yes else eval depth (2 :: site) f no
    | .binary op left right => do
      let a ← eval depth (0 :: site) f left
      let b ← eval depth (1 :: site) f right
      Action.ofExcept (op.apply a b)
    | .lambda params body => return .closure ⟨⟨site, params, body⟩, f⟩
    | .call callee args => Action.within e do
      let v ← eval depth (0 :: site) f callee
      let c ← Action.ofExcept (v.asClosure.mapError .ofCause)
      let vs ← evalAll (fun i a ↦ eval depth (i :: site) f a) 1 args
      c.runWith (eval depth) vs

/-- Runs a closure on arguments. -/
def Closure.run (depth : Nat) (c : Closure) (args : List Value) : Action Value :=
  c.runWith (eval depth) args

/-! ## More depth -/

theorem evalAll_refines {part part' : Nat → Expr → Action Value}
    (h : ∀ i e, Action.Refines (part i e) (part' i e)) (i : Nat) (es : List Expr) :
    Action.Refines (evalAll part i es) (evalAll part' i es) := by
  induction es generalizing i with
  | nil => exact .refl _
  | cons e es ih => exact (h i e).bind fun v ↦ (ih (i + 1)).bind fun vs ↦ .refl _

theorem Closure.runWith_refines {body body' : Site → FrameId → Expr → Action Value}
    (h : ∀ site f e, Action.Refines (body site f e) (body' site f e)) (c : Closure)
    (args : List Value) : Action.Refines (c.runWith body args) (c.runWith body' args) := by
  unfold Closure.runWith
  split
  · exact .refl _
  · exact (Action.Refines.refl _).bind fun _ ↦ (Action.Refines.refl _).bind fun f ↦
      (Action.Refines.refl _).bind fun _ ↦ h _ _ _

theorem eval_refines_succ (depth : Nat) (site : Site) (f : FrameId) (e : Expr) :
    Action.Refines (eval depth site f e) (eval (depth + 1) site f e) := by
  induction depth generalizing site f e with
  | zero => exact .of_unfinished _
  | succ depth ih =>
    cases e with
    | literal d => exact .refl _
    | symbol name => exact .refl _
    | definition name value => exact ((ih _ _ _).within _).bind fun v ↦ .refl _
    | conditional test yes no =>
      refine (ih _ _ _).bind fun v ↦ ?_
      split
      · exact ih _ _ _
      · exact ih _ _ _
    | binary op left right => exact (ih _ _ _).bind fun a ↦ (ih _ _ _).bind fun b ↦ .refl _
    | lambda params body => exact .refl _
    | call callee args =>
      exact .within _ ((ih _ _ _).bind fun v ↦ (Action.Refines.refl _).bind fun c ↦
        (evalAll_refines (fun i a ↦ ih _ _ _) 1 args).bind fun vs ↦
          c.runWith_refines (fun site f e ↦ ih site f e) vs)

/-- More depth changes nothing about an evaluation that ends. -/
theorem eval_refines {depth depth' : Nat} (h : depth ≤ depth') (site : Site) (f : FrameId)
    (e : Expr) : Action.Refines (eval depth site f e) (eval depth' site f e) := by
  induction h with
  | refl => exact .refl _
  | step _ ih => exact ih.trans (eval_refines_succ _ _ _ _)

end LexicalLisp
