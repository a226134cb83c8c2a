import LexicalLisp.Proofs.Evaluation.Ensures
import LexicalLisp.Proofs.Evaluation.Outcomes

/-!
# The trail of a fault is the stack of active forms

Evaluation assembles the trail of a fault from the inside out: every call and every definition that
the fault leaves adds its text. Here is an evaluator that works the other way round. A `Descent`
carries the forms under evaluation downwards, so that the place where something goes wrong knows
all of them and records them once, as forms and not as texts; nothing is added on the way out.

The two evaluators agree (`eval_agrees`), and so the trail of a fault consists of the texts of the
active forms at the point of failure, behind an entry for the operator if an operand has the wrong
type (`trail_eq_active_forms`). Only calls and definitions can be active, which is a matter of type.

## Agreement

`Descent.Agrees` compares a descent below any stack of active forms with an action around which
these forms stand. Both sides distribute over sequences (`Descent.settle_bind`,
`Action.beneath_bind`), and a form that becomes active moves from the action to the stack, which is
an equality by definition (`Descent.Agrees.under`).
-/

namespace LexicalLisp

/-- A form that is active while a part of it is evaluated. -/
inductive ActiveForm where
  /-- A definition whose value is being evaluated. -/
  | definition (name : String) (value : Expr)
  /-- A call whose callee, arguments or body is being evaluated. -/
  | call (callee : Expr) (args : List Expr)

/-- The form as an expression. -/
def ActiveForm.expr : ActiveForm → Expr
  | definition name value => .definition name value
  | call callee args => .call callee args

/-- What went wrong, as it is known at the point of failure. -/
structure Failure where
  /-- What went wrong. -/
  cause : Cause
  /-- The operator that has refused an operand, if it was one. -/
  operator : Option Operator
  /-- The forms under evaluation, innermost first. -/
  active : List ActiveForm

namespace Failure

/-- The entries of a trail for the failure: the operator, and then the active forms. -/
def trail (x : Failure) : List String :=
  x.operator.toList.map (fun op ↦ "operator " ++ op.symbol) ++
    x.active.map fun form ↦ form.expr.render

/-- The failure as it is seen from outside. -/
def toFault (x : Failure) : Fault := ⟨x.cause, x.trail⟩

/-- An operator is named if an operand has the wrong type, and only then. -/
def NamesOperator (x : Failure) : Prop :=
  x.operator.isSome = true ↔ ∃ explanation, x.cause = .typeMismatch explanation

end Failure

/-- An action that knows the active forms. It ends in a failure instead of a fault. -/
abbrev Descent := ReaderT (List ActiveForm) (ExceptT Failure Action)

namespace Descent

variable {α β : Type}

/-- Fails here, where an operator may have refused an operand. -/
def failAt (op : Option Operator) (cause : Cause) : Descent α := do
  throw ⟨cause, op, ← read⟩

/-- Fails here, but not for the sake of an operand. -/
def fail (cause : Cause) : Descent α := failAt none cause

/-- Goes on with a result, or fails here. -/
def ofExcept : Except Cause α → Descent α
  | .ok a => pure a
  | .error cause => fail cause

/-- Goes down into a form. -/
def under (form : ActiveForm) (d : Descent α) : Descent α := withReader (form :: ·) d

/-- The value of a name in a frame and its ancestors. -/
def lookup (f : FrameId) (name : String) : Descent Value := do
  match ← Action.inspect (·.lookup? f name) with
  | some v => pure v
  | none => fail (.unbound name)

/-- The integer that an operand is. -/
def operand (op : Operator) (v : Value) : Descent Fixnum :=
  match v.asInteger with
  | .ok a => pure a
  | .error cause => failAt (some op) cause

/-- The result of an operator on two values. -/
def apply (op : Operator) (left right : Value) : Descent Value := do
  let a ← operand op left
  let b ← operand op right
  ofExcept (op.compute a b)

end Descent

/-! ## The evaluator -/

/-- Evaluates expressions from left to right, the first of them being part `i` of its form. -/
def descendAll (part : Nat → Expr → Descent Value) (i : Nat) : List Expr → Descent (List Value)
  | [] => pure []
  | e :: rest => do
    let v ← part i e
    let vs ← descendAll part (i + 1) rest
    return v :: vs

/-- Goes down into the body of a closure, with a given way to evaluate it. -/
def Closure.descendWith (body : Site → FrameId → Expr → Descent Value) (c : Closure)
    (args : List Value) : Descent Value := do
  if args.length ≠ c.lambda.arity then
    Descent.fail (.arity c.lambda.arity args.length)
  else
    Action.emit (.call c args.length)
    let f ← Action.update fun s ↦ s.newFrame (some c.frame)
    Action.bindAll f (c.lambda.params.zip args)
    body (0 :: c.lambda.site) f c.lambda.body

/-- Evaluates an expression below the active forms. -/
def descend : Nat → Site → FrameId → Expr → Descent Value
  | 0, _, _, _ => monadLift (Action.unfinished : Action Value)
  | depth + 1, site, f, e =>
    match e with
    | .literal datum => Descent.ofExcept (Value.ofLiteral datum)
    | .symbol name => Descent.lookup f name
    | .definition name value => do
      let v ← Descent.under (.definition name value) (descend depth (0 :: site) f value)
      Action.bindName f name v
      return v
    | .conditional test yes no => do
      let v ← descend depth (0 :: site) f test
      if v.isTrue then descend depth (1 :: site) f yes else descend depth (2 :: site) f no
    | .binary op left right => do
      let a ← descend depth (0 :: site) f left
      let b ← descend depth (1 :: site) f right
      Descent.apply op a b
    | .lambda params body => return .closure ⟨⟨site, params, body⟩, f⟩
    | .call callee args => Descent.under (.call callee args) do
      let v ← descend depth (0 :: site) f callee
      let c ← Descent.ofExcept v.asClosure
      let vs ← descendAll (fun i a ↦ descend depth (i :: site) f a) 1 args
      c.descendWith (descend depth) vs

/-! ## Actions below active forms -/

namespace Action

variable {α β : Type} {m : Action α}

/-- The action with the active forms around it, the first of them innermost. -/
def beneath (active : List ActiveForm) (m : Action α) : Action α :=
  active.foldl (fun m form ↦ within form.expr m) m

theorem within_bind (form : Expr) (m : Action α) (k : α → Action β) :
    within form (m >>= k) = within form m >>= fun a ↦ within form (k a) := by
  funext s
  change within form (Action.bind m k) s =
    Action.bind (within form m) (fun a ↦ within form (k a)) s
  rcases hm : m s with _ | ⟨fault | a, s', es⟩
  · simp [within, Action.bind, hm]
  · simp [within, Action.bind, hm]
  · rcases hk : k a s' with _ | ⟨fault | b, s'', es'⟩ <;> simp [within, Action.bind, hm, hk]

theorem beneath_bind (active : List ActiveForm) (m : Action α) (k : α → Action β) :
    (m >>= k).beneath active = m.beneath active >>= fun a ↦ (k a).beneath active := by
  induction active generalizing m k with
  | nil => rfl
  | cons form active ih =>
    change (within form.expr (m >>= k)).beneath active = _
    rw [within_bind, ih]
    rfl

theorem beneath_fail (active : List ActiveForm) (fault : Fault) :
    (fail fault : Action α).beneath active =
      fail ⟨fault.cause, fault.trail ++ active.map fun form ↦ form.expr.render⟩ := by
  induction active generalizing fault with
  | nil =>
    rw [List.map_nil, List.append_nil]
    rfl
  | cons form active ih =>
    change (fail (fault.inside form.expr.render)).beneath active = _
    rw [ih, Fault.inside, List.append_assoc]
    rfl

/-- The action never ends in a fault. -/
def Faultless (m : Action α) : Prop := ∀ s, m.Ensures s fun result _ ↦ ∃ a, result = .ok a

theorem faultless_unfinished : (unfinished : Action α).Faultless := fun _ ↦ ensures_unfinished

theorem faultless_pure (a : α) : (pure a : Action α).Faultless := fun _ ↦ ensures_pure ⟨a, rfl⟩

theorem faultless_update (change : Store → α × Store) : (update change).Faultless :=
  fun _ ↦ ensures_update ⟨_, rfl⟩

theorem faultless_inspect (view : Store → α) : (inspect view).Faultless := by
  intro s r hr
  cases hr
  exact ⟨_, rfl⟩

theorem faultless_emit (event : Event) : (emit event).Faultless := by
  intro s r hr
  cases hr
  exact ⟨_, rfl⟩

theorem Faultless.bind {k : α → Action β} (hm : m.Faultless) (hk : ∀ a, (k a).Faultless) :
    (m >>= k).Faultless :=
  fun s ↦ (hm s).bind (fun _ _ h ↦ nomatch h) fun a s' _ ↦ hk a s'

theorem faultless_bindName (f : FrameId) (name : String) (v : Value) :
    (bindName f name v).Faultless :=
  (faultless_emit _).bind fun _ ↦ faultless_update _

theorem faultless_bindAll (f : FrameId) (bs : List (String × Value)) :
    (bindAll f bs).Faultless := by
  induction bs with
  | nil => exact faultless_pure ()
  | cons b bs ih => exact (faultless_bindName f b.1 b.2).bind fun _ ↦ ih

/-- Forms around an action that never ends in a fault make no difference. -/
theorem Faultless.beneath_eq (hm : m.Faultless) (active : List ActiveForm) :
    m.beneath active = m := by
  have hwithin : ∀ form, within form m = m := by
    intro form
    funext s
    rw [within]
    split
    next fault s' es h =>
      obtain ⟨a, ha⟩ := hm s _ h
      cases ha
    next => rfl
  induction active with
  | nil => rfl
  | cons form active ih =>
    change (within form.expr m).beneath active = m
    rw [hwithin, ih]

end Action

/-! ## Agreement -/

namespace Descent

variable {α β : Type} {m : Action α} {d : Descent α}

/-- The descent below the active forms as an action that ends in a fault where the descent fails. -/
def settle (d : Descent α) (active : List ActiveForm) : Action α :=
  (d active).run >>= fun
    | .ok a => pure a
    | .error x => Action.fail x.toFault

theorem settle_bind (d : Descent α) (k : α → Descent β) (active : List ActiveForm) :
    (d >>= k).settle active = d.settle active >>= fun a ↦ (k a).settle active := by
  change ((d active >>= fun a ↦ k a active).run >>= _) = (_ >>= _) >>= _
  rw [ExceptT.run_bind, bind_assoc, bind_assoc]
  congr 1
  funext result
  cases result with
  | ok a => exact (pure_bind a fun a ↦ (k a).settle active).symm
  | error x => rfl

theorem settle_lift (m : Action α) (active : List ActiveForm) :
    (monadLift m : Descent α).settle active = m := by
  change ((Except.ok <$> m) >>= _) = m
  rw [bind_map_left]
  exact bind_pure m

/-- Below any active forms, the descent ends as the action does inside these forms. -/
def Agrees (m : Action α) (d : Descent α) : Prop :=
  ∀ active, d.settle active = m.beneath active

theorem agrees_lift (hm : m.Faultless) : Agrees m (monadLift m) := by
  intro active
  rw [settle_lift, hm.beneath_eq]

theorem agrees_pure (a : α) : Agrees (pure a) (pure a) := by
  intro active
  rw [(Action.faultless_pure a).beneath_eq]
  rfl

theorem agrees_fail (cause : Cause) :
    Agrees (Action.fail (.ofCause cause) : Action α) (fail cause) := by
  intro active
  rw [Action.beneath_fail]
  rfl

theorem agrees_ofExcept (result : Except Cause α) :
    Agrees (Action.ofExcept (result.mapError .ofCause)) (ofExcept result) := by
  cases result with
  | ok a => exact agrees_pure a
  | error cause => exact agrees_fail cause

theorem Agrees.bind {k : α → Action β} {l : α → Descent β} (h : Agrees m d)
    (hk : ∀ a, Agrees (k a) (l a)) : Agrees (m >>= k) (d >>= l) := by
  intro active
  rw [settle_bind, Action.beneath_bind, h active]
  congr 1
  funext a
  exact hk a active

theorem Agrees.under (form : ActiveForm) (h : Agrees m d) :
    Agrees (Action.within form.expr m) (under form d) := fun active ↦ h (form :: active)

theorem agrees_lookup (f : FrameId) (name : String) :
    Agrees (Action.lookup f name) (lookup f name) := by
  have hlookup : Action.lookup f name = Action.inspect (·.lookup? f name) >>= fun
      | some v => pure v
      | none => Action.fail (.ofCause (.unbound name)) := by
    funext s
    change Action.lookup f name s = Action.bind _ _ s
    simp only [Action.lookup, Action.bind, Action.inspect]
    cases s.lookup? f name <;> rfl
  rw [hlookup]
  refine (agrees_lift (Action.faultless_inspect _)).bind fun found ↦ ?_
  cases found with
  | some v => exact agrees_pure v
  | none => exact agrees_fail _

theorem agrees_operand (op : Operator) (v : Value) :
    Agrees (Action.ofExcept (op.operand v)) (operand op v) := by
  rw [Operator.operand, operand]
  cases v.asInteger with
  | ok a => exact agrees_pure a
  | error cause =>
    intro active
    change _ = (Action.fail _).beneath active
    rw [Action.beneath_fail]
    rfl

theorem agrees_apply (op : Operator) (left right : Value) :
    Agrees (Action.ofExcept (op.apply left right)) (apply op left right) := by
  have happly : Action.ofExcept (op.apply left right) = (do
      let a ← Action.ofExcept (op.operand left)
      let b ← Action.ofExcept (op.operand right)
      Action.ofExcept ((op.compute a b).mapError .ofCause)) := by
    rw [Operator.apply]
    cases op.operand left with
    | error fault => rfl
    | ok a =>
      cases op.operand right with
      | error fault => rfl
      | ok b =>
        change Action.ofExcept ((op.compute a b).mapError Fault.ofCause) = pure a >>= fun a ↦ _
        rw [pure_bind]
        change _ = pure b >>= fun b ↦ _
        rw [pure_bind]
  rw [happly]
  exact (agrees_operand op left).bind fun a ↦ (agrees_operand op right).bind fun b ↦
    agrees_ofExcept _

end Descent

open LexicalLisp.Descent

theorem evalAll_agrees {part : Nat → Expr → Action Value} {part' : Nat → Expr → Descent Value}
    (h : ∀ i e, Agrees (part i e) (part' i e)) (i : Nat) (es : List Expr) :
    Agrees (evalAll part i es) (descendAll part' i es) := by
  induction es generalizing i with
  | nil => exact agrees_pure []
  | cons e es ih => exact (h i e).bind fun v ↦ (ih (i + 1)).bind fun vs ↦ agrees_pure (v :: vs)

theorem Closure.runWith_agrees {body : Site → FrameId → Expr → Action Value}
    {body' : Site → FrameId → Expr → Descent Value}
    (h : ∀ site f e, Agrees (body site f e) (body' site f e)) (c : Closure) (args : List Value) :
    Agrees (c.runWith body args) (c.descendWith body' args) := by
  unfold Closure.runWith Closure.descendWith
  split
  · exact agrees_fail _
  · exact (agrees_lift (Action.faultless_emit _)).bind fun _ ↦
      (agrees_lift (Action.faultless_update _)).bind fun f ↦
        (agrees_lift (Action.faultless_bindAll f _)).bind fun _ ↦ h _ _ _

/-- The two evaluators agree below any active forms. -/
theorem eval_agrees (depth : Nat) (site : Site) (f : FrameId) (e : Expr) :
    Agrees (eval depth site f e) (descend depth site f e) := by
  induction depth generalizing site f e with
  | zero => exact agrees_lift Action.faultless_unfinished
  | succ depth ih =>
    cases e with
    | literal datum => exact agrees_ofExcept _
    | symbol name => exact agrees_lookup f name
    | definition name value =>
      exact ((ih _ f value).under (.definition name value)).bind fun v ↦
        (agrees_lift (Action.faultless_bindName f name v)).bind fun _ ↦ agrees_pure v
    | conditional test yes no =>
      refine (ih _ f test).bind fun v ↦ ?_
      split
      · exact ih _ f yes
      · exact ih _ f no
    | binary op left right =>
      exact (ih _ f left).bind fun a ↦ (ih _ f right).bind fun b ↦ agrees_apply op a b
    | lambda params body => exact agrees_pure _
    | call callee args =>
      exact .under (.call callee args) ((ih _ f callee).bind fun v ↦
        (agrees_ofExcept _).bind fun c ↦
          (evalAll_agrees (fun i a ↦ ih _ f a) 1 args).bind fun vs ↦
            c.runWith_agrees (fun site f e ↦ ih site f e) vs)

/-! ## When an operator is named -/

namespace Descent

variable {α β : Type} {d : Descent α}

/-- The descent ends in a value or in a failure, and a failure names an operator if an operand has
the wrong type, and only then. -/
def Reports (d : Descent α) : Prop :=
  ∀ active s, (d active).run.Ensures s fun result _ ↦
    ∃ outcome, result = .ok outcome ∧ ∀ x, outcome = .error x → x.NamesOperator

theorem reports_lift {m : Action α} (hm : m.Faultless) : Reports (monadLift m) := by
  intro active s
  refine (hm s).bind (fun _ _ h ↦ nomatch h) fun a s' _ ↦ Action.ensures_pure ?_
  exact ⟨.ok a, rfl, nofun⟩

theorem reports_pure (a : α) : Reports (pure a) :=
  fun _ _ ↦ Action.ensures_pure ⟨.ok a, rfl, nofun⟩

theorem reports_failAt {op : Option Operator} {cause : Cause}
    (h : op.isSome = true ↔ ∃ explanation, cause = .typeMismatch explanation) :
    Reports (failAt op cause : Descent α) := by
  refine fun active s ↦ Action.ensures_pure ⟨_, rfl, ?_⟩
  rintro x ⟨⟩
  exact h

theorem reports_fail {cause : Cause} (h : ∀ explanation, cause ≠ .typeMismatch explanation) :
    Reports (fail cause : Descent α) :=
  reports_failAt (iff_of_false nofun fun ⟨explanation, heq⟩ ↦ h explanation heq)

theorem reports_ofExcept {result : Except Cause α}
    (h : ∀ cause explanation, result = .error cause → cause ≠ .typeMismatch explanation) :
    Reports (ofExcept result) := by
  cases result with
  | ok a => exact reports_pure a
  | error cause => exact reports_fail fun explanation ↦ h cause explanation rfl

theorem Reports.bind {k : α → Descent β} (hd : Reports d) (hk : ∀ a, Reports (k a)) :
    Reports (d >>= k) := by
  intro active s
  change ((d active >>= fun a ↦ k a active).run).Ensures s _
  rw [ExceptT.run_bind]
  refine (hd active s).bind (fun _ _ ⟨_, h, _⟩ ↦ nomatch h) fun outcome s' ⟨_, heq, hx⟩ ↦ ?_
  cases heq
  cases outcome with
  | ok a => exact hk a active s'
  | error x => exact Action.ensures_pure ⟨.error x, rfl, fun _ h ↦ hx _ (by cases h; rfl)⟩

theorem Reports.under (form : ActiveForm) (h : Reports d) : Reports (under form d) :=
  fun active ↦ h (form :: active)

theorem reports_lookup (f : FrameId) (name : String) : Reports (lookup f name) := by
  refine (reports_lift (Action.faultless_inspect _)).bind fun found ↦ ?_
  cases found with
  | some v => exact reports_pure v
  | none => exact reports_fail nofun

theorem reports_operand (op : Operator) (v : Value) : Reports (operand op v) := by
  rw [operand]
  cases h : v.asInteger with
  | ok a => exact reports_pure a
  | error cause => exact reports_failAt (iff_of_true rfl (Value.exists_typeMismatch_of_asInteger h))

theorem reports_apply (op : Operator) (left right : Value) : Reports (apply op left right) :=
  (reports_operand op left).bind fun _ ↦ (reports_operand op right).bind fun _ ↦
    reports_ofExcept fun cause explanation h ↦ by
      obtain rfl | ⟨_, rfl⟩ := Operator.division_or_overflow_of_compute h <;> exact nofun

end Descent

theorem descendAll_reports {part : Nat → Expr → Descent Value}
    (h : ∀ i e, Reports (part i e)) (i : Nat) (es : List Expr) :
    Reports (descendAll part i es) := by
  induction es generalizing i with
  | nil => exact reports_pure []
  | cons e es ih => exact (h i e).bind fun v ↦ (ih (i + 1)).bind fun vs ↦ reports_pure (v :: vs)

theorem Closure.descendWith_reports {body : Site → FrameId → Expr → Descent Value}
    (h : ∀ site f e, Reports (body site f e)) (c : Closure) (args : List Value) :
    Reports (c.descendWith body args) := by
  unfold Closure.descendWith
  split
  · exact reports_fail nofun
  · exact (reports_lift (Action.faultless_emit _)).bind fun _ ↦
      (reports_lift (Action.faultless_update _)).bind fun f ↦
        (reports_lift (Action.faultless_bindAll f _)).bind fun _ ↦ h _ _ _

/-- Every failure of an evaluation names an operator as it should. -/
theorem descend_reports (depth : Nat) (site : Site) (f : FrameId) (e : Expr) :
    Reports (descend depth site f e) := by
  induction depth generalizing site f e with
  | zero => exact reports_lift Action.faultless_unfinished
  | succ depth ih =>
    cases e with
    | literal datum =>
      refine reports_ofExcept fun cause explanation h ↦ ?_
      rw [Value.eq_malformed_of_ofLiteral h]
      exact nofun
    | symbol name => exact reports_lookup f name
    | definition name value =>
      exact ((ih _ f value).under _).bind fun v ↦
        (reports_lift (Action.faultless_bindName f name v)).bind fun _ ↦ reports_pure v
    | conditional test yes no =>
      refine (ih _ f test).bind fun v ↦ ?_
      split
      · exact ih _ f yes
      · exact ih _ f no
    | binary op left right =>
      exact (ih _ f left).bind fun a ↦ (ih _ f right).bind fun b ↦ reports_apply op a b
    | lambda params body => exact reports_pure _
    | call callee args =>
      refine .under _ ((ih _ f callee).bind fun v ↦ ?_)
      have hclosure : Reports (ofExcept v.asClosure) := by
        refine reports_ofExcept fun cause explanation h ↦ ?_
        rw [Value.eq_notCallable_of_asClosure h]
        exact nofun
      exact hclosure.bind fun c ↦ (descendAll_reports (fun i a ↦ ih _ f a) 1 args).bind fun vs ↦
        c.descendWith_reports (fun site f e ↦ ih site f e) vs

/-! ## The trail -/

theorem Descent.Reports.exists_failure {α : Type} {d : Descent α} (hd : Reports d)
    {active : List ActiveForm} {s s' : Store} {es : List Event} {fault : Fault}
    (h : d.settle active s = some ⟨.error fault, s', es⟩) :
    ∃ x : Failure, (d active).run s = some ⟨.ok (.error x), s', es⟩ ∧ fault = x.toFault ∧
      x.NamesOperator := by
  obtain ⟨fault', hrun, -⟩ | ⟨outcome, t, es₁, r, hrun, hrest, heq⟩ :=
    Action.bind_eq_some_iff.mp h
  · obtain ⟨_, habsurd, -⟩ := hd active s _ hrun
    cases habsurd
  · obtain ⟨_, hok, hnames⟩ := hd active s _ hrun
    cases hok
    cases outcome with
    | ok a =>
      cases hrest
      cases heq
    | error x =>
      cases hrest
      cases heq
      rw [List.append_nil]
      exact ⟨x, hrun, rfl, hnames x rfl⟩

/-- **The trail is the stack of active forms.** Evaluation does what the evaluator does that carries
the active forms downwards. Where it ends in a fault, the trail has the texts of precisely the calls
and definitions that were active at the point of failure, innermost first, behind one entry for the
operator if the fault is that an operand has the wrong type, and only then. -/
theorem trail_eq_active_forms (depth : Nat) (site : Site) (f : FrameId) (e : Expr) (s : Store) :
    eval depth site f e s = (descend depth site f e).settle [] s ∧
    ∀ s' es fault, eval depth site f e s = some ⟨.error fault, s', es⟩ →
      ∃ x : Failure, (descend depth site f e []).run s = some ⟨.ok (.error x), s', es⟩ ∧
        fault.cause = x.cause ∧
        fault.trail = x.operator.toList.map (fun op ↦ "operator " ++ op.symbol) ++
          x.active.map (fun form ↦ form.expr.render) ∧
        (x.operator.isSome = true ↔ ∃ explanation, fault.cause = .typeMismatch explanation) := by
  have hagree : eval depth site f e s = (descend depth site f e).settle [] s :=
    congrFun (eval_agrees depth site f e []).symm s
  refine ⟨hagree, fun s' es fault h ↦ ?_⟩
  rw [hagree] at h
  obtain ⟨x, hx, rfl, hnames⟩ := (descend_reports depth site f e).exists_failure h
  exact ⟨x, hx, rfl, rfl, hnames⟩

/-- An operand is refused in the body of a closure, while a definition waits for the value of the
call; the call in the test of the conditional has ended before, and leaves no entry. -/
theorem trail_eq_active_forms_refused_operand :
    let s := (Store.empty.newFrame none).2
    let truth := Expr.literal (.bool true)
    let body := Expr.conditional (.call (.lambda [] truth) []) (.binary .add truth truth) truth
    let inner := Expr.call (.lambda ["x"] body) [truth]
    let e := Expr.definition "y" inner
    ∃ fault s' es, eval 6 [0] 0 e s = some ⟨.error fault, s', es⟩ ∧
      fault.trail = ["operator " ++ Operator.add.symbol, inner.render, e.render] := by
  intro s truth body inner e
  obtain ⟨fault, s', es, hrun⟩ : ∃ fault s' es, eval 6 [0] 0 e s = some ⟨.error fault, s', es⟩ :=
    ⟨_, _, _, rfl⟩
  obtain ⟨x, hx, -, htrail, -⟩ := (trail_eq_active_forms 6 [0] 0 e s).2 s' es fault hrun
  have hdescend : ∃ cause s' es, (descend 6 [0] 0 e []).run s = some ⟨.ok (.error ⟨cause, some .add,
      [.call (.lambda ["x"] body) [truth], .definition "y" inner]⟩), s', es⟩ :=
    ⟨_, _, _, rfl⟩
  obtain ⟨cause, _, _, hfailure⟩ := hdescend
  cases hx.symm.trans hfailure
  exact ⟨fault, s', es, hrun, htrail⟩

end LexicalLisp
