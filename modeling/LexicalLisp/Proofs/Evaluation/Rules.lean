import LexicalLisp.Proofs.Evaluation.Discipline
import LexicalLisp.Proofs.Evaluation.Endings

/-!
# The rules of evaluation

Evaluation is a function with a bound on its depth. Here are its rules without such a bound, as a
relation (`Evaluates`): which parts of an expression are evaluated, in which stores, and what comes
of it. A rule also gives the moments of the evaluation in order. A moment is an event, or the visit
of an expression: its evaluation begins in a frame.

There is one rule for each way in which an expression can end. Those for a fault have the parts up
to the one that fails as premises, and none behind it.

The rules describe precisely the evaluations that come to an end at some depth
(`exists_eval_iff`), so what is shown by induction over the rules holds of evaluation.
-/

namespace LexicalLisp

open LexicalLisp.Action

/-! ## Moments -/

/-- A moment of an evaluation. -/
inductive Moment where
  /-- The evaluation of the expression at a site begins, in a frame. -/
  | visit (site : Site) (f : FrameId)
  /-- An event is emitted. -/
  | event (event : Event)

namespace Moment

/-- The expression that is visited, if it is a visit. -/
def visit? : Moment → Option (Site × FrameId)
  | visit site f => some (site, f)
  | event _ => none

/-- The event, if it is one. -/
def event? : Moment → Option Event
  | visit .. => none
  | event e => some e

/-- The visits among moments. -/
def visits (ms : List Moment) : List (Site × FrameId) := ms.filterMap visit?

/-- The events among moments. -/
def events (ms : List Moment) : List Event := ms.filterMap event?

end Moment

/-- The events that tell of the bindings of the parameters, in their order. -/
def Closure.bindings (c : Closure) (args : List Value) : List Event :=
  (c.lambda.params.zip args).map fun b ↦ .bind b.1 b.2

/-- The events before the body of a closure is evaluated: the call, and then the bindings. -/
def Closure.announcement (c : Closure) (args : List Value) : List Event :=
  .call c args.length :: c.bindings args

/-! ## The rules -/

mutual

/-- Begun in the first store, the evaluation of the expression at a site in a frame ends with the
result in the second store, and has these moments. -/
inductive Evaluates : Store → Site → FrameId → Expr → Except Fault Value → Store → List Moment →
    Prop
  | literal {s : Store} {site : Site} {f : FrameId} (datum : Datum) :
    Evaluates s site f (.literal datum) ((Value.ofLiteral datum).mapError .ofCause) s
      [.visit site f]
  | symbol {s : Store} {site : Site} {f : FrameId} {name : String} {v : Value}
    (h : s.lookup? f name = some v) : Evaluates s site f (.symbol name) (.ok v) s [.visit site f]
  | unbound {s : Store} {site : Site} {f : FrameId} {name : String}
    (h : s.lookup? f name = none) :
    Evaluates s site f (.symbol name) (.error (.ofCause (.unbound name))) s [.visit site f]
  | lambda {s : Store} {site : Site} {f : FrameId} (params : List String) (body : Expr) :
    Evaluates s site f (.lambda params body) (.ok (.closure ⟨⟨site, params, body⟩, f⟩)) s
      [.visit site f]
  /-- The name is bound once its value is there. -/
  | definition {s s₁ : Store} {site : Site} {f : FrameId} {name : String} {value : Expr} {v : Value}
    {ms : List Moment} (h : Evaluates s (0 :: site) f value (.ok v) s₁ ms) :
    Evaluates s site f (.definition name value) (.ok v) (s₁.bind f name v)
      (.visit site f :: ms ++ [.event (.bind name v)])
  | definition_fault {s s₁ : Store} {site : Site} {f : FrameId} {name : String} {value : Expr}
    {x : Fault} {ms : List Moment} (h : Evaluates s (0 :: site) f value (.error x) s₁ ms) :
    Evaluates s site f (.definition name value)
      (.error (x.inside (Expr.definition name value).render)) s₁ (.visit site f :: ms)
  /-- Of the two branches, one is evaluated. -/
  | conditional {s s₁ s₂ : Store} {site : Site} {f : FrameId} {test yes no : Expr} {v : Value}
    {result : Except Fault Value} {ms ns : List Moment}
    (htest : Evaluates s (0 :: site) f test (.ok v) s₁ ms)
    (hbranch : Evaluates s₁ ((if v.isTrue then 1 else 2) :: site) f (if v.isTrue then yes else no)
      result s₂ ns) :
    Evaluates s site f (.conditional test yes no) result s₂ (.visit site f :: ms ++ ns)
  | test_fault {s s₁ : Store} {site : Site} {f : FrameId} {test yes no : Expr} {x : Fault}
    {ms : List Moment} (h : Evaluates s (0 :: site) f test (.error x) s₁ ms) :
    Evaluates s site f (.conditional test yes no) (.error x) s₁ (.visit site f :: ms)
  /-- The left operand comes first. -/
  | binary {s s₁ s₂ : Store} {site : Site} {f : FrameId} {op : Operator} {left right : Expr}
    {a b : Value} {ms ns : List Moment} (hleft : Evaluates s (0 :: site) f left (.ok a) s₁ ms)
    (hright : Evaluates s₁ (1 :: site) f right (.ok b) s₂ ns) :
    Evaluates s site f (.binary op left right) (op.apply a b) s₂ (.visit site f :: ms ++ ns)
  | left_fault {s s₁ : Store} {site : Site} {f : FrameId} {op : Operator} {left right : Expr}
    {x : Fault} {ms : List Moment} (h : Evaluates s (0 :: site) f left (.error x) s₁ ms) :
    Evaluates s site f (.binary op left right) (.error x) s₁ (.visit site f :: ms)
  | right_fault {s s₁ s₂ : Store} {site : Site} {f : FrameId} {op : Operator} {left right : Expr}
    {a : Value} {x : Fault} {ms ns : List Moment}
    (hleft : Evaluates s (0 :: site) f left (.ok a) s₁ ms)
    (hright : Evaluates s₁ (1 :: site) f right (.error x) s₂ ns) :
    Evaluates s site f (.binary op left right) (.error x) s₂ (.visit site f :: ms ++ ns)
  /-- The callee, the arguments from left to right, the announcement of the call, and the body in
  the new frame. -/
  | call {s s₁ s₂ s₃ : Store} {site : Site} {f : FrameId} {callee : Expr} {args : List Expr}
    {c : Closure} {vs : List Value} {result : Except Fault Value} {ms ns bs : List Moment}
    (hcallee : Evaluates s (0 :: site) f callee (.ok (.closure c)) s₁ ms)
    (hargs : EvaluatesAll s₁ site f 1 args (.ok vs) s₂ ns) (harity : vs.length = c.lambda.arity)
    (hbody : Evaluates (s₂.enter c vs) (0 :: c.lambda.site) s₂.frames.size c.lambda.body result s₃
      bs) :
    Evaluates s site f (.call callee args)
      (result.mapError (·.inside (Expr.call callee args).render)) s₃
      (.visit site f :: ms ++ ns ++ (c.announcement vs).map .event ++ bs)
  | callee_fault {s s₁ : Store} {site : Site} {f : FrameId} {callee : Expr} {args : List Expr}
    {x : Fault} {ms : List Moment} (h : Evaluates s (0 :: site) f callee (.error x) s₁ ms) :
    Evaluates s site f (.call callee args) (.error (x.inside (Expr.call callee args).render)) s₁
      (.visit site f :: ms)
  /-- Without a closure, no argument is evaluated. -/
  | not_callable {s s₁ : Store} {site : Site} {f : FrameId} {callee : Expr} {args : List Expr}
    {v : Value} {ms : List Moment} (hcallee : Evaluates s (0 :: site) f callee (.ok v) s₁ ms)
    (hv : ∀ c, v ≠ .closure c) :
    Evaluates s site f (.call callee args)
      (.error ⟨.notCallable v.render, [(Expr.call callee args).render]⟩) s₁ (.visit site f :: ms)
  | argument_fault {s s₁ s₂ : Store} {site : Site} {f : FrameId} {callee : Expr} {args : List Expr}
    {c : Closure} {x : Fault} {ms ns : List Moment}
    (hcallee : Evaluates s (0 :: site) f callee (.ok (.closure c)) s₁ ms)
    (hargs : EvaluatesAll s₁ site f 1 args (.error x) s₂ ns) :
    Evaluates s site f (.call callee args) (.error (x.inside (Expr.call callee args).render)) s₂
      (.visit site f :: ms ++ ns)
  /-- The call of a closure with the wrong number of arguments is not announced. -/
  | arity {s s₁ s₂ : Store} {site : Site} {f : FrameId} {callee : Expr} {args : List Expr}
    {c : Closure} {vs : List Value} {ms ns : List Moment}
    (hcallee : Evaluates s (0 :: site) f callee (.ok (.closure c)) s₁ ms)
    (hargs : EvaluatesAll s₁ site f 1 args (.ok vs) s₂ ns) (harity : vs.length ≠ c.lambda.arity) :
    Evaluates s site f (.call callee args)
      (.error ⟨.arity c.lambda.arity vs.length, [(Expr.call callee args).render]⟩) s₂
      (.visit site f :: ms ++ ns)

/-- The same for expressions from left to right, the first of them being part `i` of the form at the
site. The first fault is the result. -/
inductive EvaluatesAll : Store → Site → FrameId → Nat → List Expr → Except Fault (List Value) →
    Store → List Moment → Prop
  | nil {s : Store} {site : Site} {f : FrameId} {i : Nat} :
    EvaluatesAll s site f i [] (.ok []) s []
  | fault {s s₁ : Store} {site : Site} {f : FrameId} {i : Nat} {e : Expr} {es : List Expr}
    {x : Fault} {ms : List Moment} (h : Evaluates s (i :: site) f e (.error x) s₁ ms) :
    EvaluatesAll s site f i (e :: es) (.error x) s₁ ms
  | cons {s s₁ s₂ : Store} {site : Site} {f : FrameId} {i : Nat} {e : Expr} {es : List Expr}
    {v : Value} {result : Except Fault (List Value)} {ms ns : List Moment}
    (he : Evaluates s (i :: site) f e (.ok v) s₁ ms)
    (hes : EvaluatesAll s₁ site f (i + 1) es result s₂ ns) :
    EvaluatesAll s site f i (e :: es) (result.map (v :: ·)) s₂ (ms ++ ns)

end

/-! ## Calls -/

namespace Action

theorem ofExcept_asClosure (c : Closure) :
    ofExcept ((Value.closure c).asClosure.mapError Fault.ofCause) = pure c := rfl

theorem bindAll_apply (f : FrameId) (bs : List (String × Value)) (s : Store) :
    bindAll f bs s = some ⟨.ok (), s.bindAll f bs, bs.map fun b ↦ .bind b.1 b.2⟩ := by
  induction bs generalizing s with
  | nil => rfl
  | cons b bs ih =>
    rw [bindAll, bind_apply, show bindName f b.1 b.2 s =
      some ⟨.ok (), s.bind f b.1 b.2, [.bind b.1 b.2]⟩ from rfl]
    simp only [ih]
    rfl

end Action

namespace Closure

variable {evalBody : Site → FrameId → Expr → Action Value} {c : Closure} {args : List Value}
  {s : Store}

theorem runWith_of_ne (h : args.length ≠ c.lambda.arity) :
    c.runWith evalBody args s =
      some ⟨.error (.ofCause (.arity c.lambda.arity args.length)), s, []⟩ := by
  rw [runWith, if_pos h]
  rfl

theorem runWith_of_eq (h : args.length = c.lambda.arity) :
    c.runWith evalBody args s =
      (evalBody (0 :: c.lambda.site) s.frames.size c.lambda.body (s.enter c args)).map fun r ↦
        { r with events := c.announcement args ++ r.events } := by
  rw [runWith, if_neg (not_not_intro h), bind_apply]
  simp only [emit]
  rw [bind_apply]
  simp only [update, Store.newFrame]
  rw [bind_apply, bindAll_apply]
  simp only [Option.map_map]
  rfl

theorem runWith_cases {r : Run Value} (h : c.runWith evalBody args s = some r) :
    (args.length ≠ c.lambda.arity ∧
      r = ⟨.error (.ofCause (.arity c.lambda.arity args.length)), s, []⟩) ∨
    args.length = c.lambda.arity ∧ ∃ r₁,
      evalBody (0 :: c.lambda.site) s.frames.size c.lambda.body (s.enter c args) = some r₁ ∧
        r = { r₁ with events := c.announcement args ++ r₁.events } := by
  by_cases harity : args.length = c.lambda.arity
  · rw [runWith_of_eq harity, Option.map_eq_some_iff] at h
    obtain ⟨r₁, hbody, rfl⟩ := h
    exact .inr ⟨harity, r₁, hbody, rfl⟩
  · rw [runWith_of_ne harity] at h
    exact .inl ⟨harity, (Option.some.inj h).symm⟩

end Closure

/-! ## Evaluations follow the rules -/

namespace Moment

@[simp] theorem events_visit (site : Site) (f : FrameId) (ms : List Moment) :
    events (visit site f :: ms) = events ms := rfl

@[simp] theorem events_append (ms ns : List Moment) : events (ms ++ ns) = events ms ++ events ns :=
  List.filterMap_append

@[simp] theorem events_map_event (es : List Event) : events (es.map event) = es := by
  rw [events, List.filterMap_map]
  exact List.filterMap_some

end Moment

open LexicalLisp.Moment

/-- The run follows the rules: some moments lead to its end, and their events are those of it. -/
def Run.Follows (s : Store) (site : Site) (f : FrameId) (e : Expr) (r : Run Value) : Prop :=
  ∃ ms, Evaluates s site f e r.result r.store ms ∧ Moment.events ms = r.events

theorem follows_evalAll {part : Nat → Expr → Action Value} {site : Site} {f : FrameId}
    (hpart : ∀ i e s r, part i e s = some r → r.Follows s (i :: site) f e) {i : Nat}
    {es : List Expr} {s : Store} {r : Run (List Value)} (h : evalAll part i es s = some r) :
    ∃ ms, EvaluatesAll s site f i es r.result r.store ms ∧ events ms = r.events := by
  induction es generalizing i s r with
  | nil =>
    cases h
    exact ⟨[], .nil, rfl⟩
  | cons e es ih =>
    obtain ⟨x, s₁, es₁, he, rfl⟩ | ⟨v, s₁, es₁, r₁, he, hrest, rfl⟩ := bind_cases h
    · obtain ⟨ms, hms, hevents⟩ := hpart i e s _ he
      exact ⟨ms, .fault hms, hevents⟩
    obtain ⟨ms, hms, hevents⟩ := hpart i e s _ he
    obtain ⟨x, s₂, es₂, hes, rfl⟩ | ⟨vs, s₂, es₂, r₂, hes, hpure, rfl⟩ := bind_cases hrest
    · obtain ⟨ns, hns, hevents'⟩ := ih hes
      exact ⟨ms ++ ns, .cons hms hns, by simp [hevents, hevents']⟩
    · cases hpure
      obtain ⟨ns, hns, hevents'⟩ := ih hes
      exact ⟨ms ++ ns, .cons hms hns, by simp [hevents, hevents']⟩

/-- Wherever an evaluation ends, it has followed the rules. -/
theorem follows_eval {depth : Nat} {site : Site} {f : FrameId} {e : Expr} {s : Store}
    {r : Run Value} (h : eval depth site f e s = some r) : r.Follows s site f e := by
  induction depth generalizing site f e s r with
  | zero => cases h
  | succ depth ih =>
    cases e with
    | literal datum =>
      cases (ofExcept_apply _ s).symm.trans h
      exact ⟨_, .literal datum, rfl⟩
    | symbol name =>
      change lookup f name s = some r at h
      rw [lookup] at h
      split at h
      next v hv =>
        cases h
        exact ⟨_, .symbol hv, rfl⟩
      next hnone =>
        cases h
        exact ⟨_, .unbound hnone, rfl⟩
    | definition name value =>
      obtain ⟨x, s₁, es, hwithin, rfl⟩ | ⟨v, s₁, es, r₁, hwithin, hrest, rfl⟩ := bind_cases h
      · obtain ⟨⟨x | v, _, _⟩, hvalue, hr⟩ := within_cases hwithin
        · cases hr
          obtain ⟨ms, hms, hevents⟩ := ih hvalue
          exact ⟨_, .definition_fault hms, hevents⟩
        · cases hr
      · obtain ⟨⟨x | v, _, _⟩, hvalue, hr⟩ := within_cases hwithin
        · cases hr
        · cases hr
          cases hrest
          obtain ⟨ms, hms, hevents⟩ := ih hvalue
          refine ⟨_, .definition hms, ?_⟩
          rw [List.cons_append, events_visit, events_append, hevents]
          rfl
    | conditional test yes no =>
      obtain ⟨x, s₁, es, htest, rfl⟩ | ⟨v, s₁, es, r₁, htest, hrest, rfl⟩ := bind_cases h
      · obtain ⟨ms, hms, hevents⟩ := ih htest
        exact ⟨_, .test_fault hms, hevents⟩
      obtain ⟨ms, hms, hevents⟩ := ih htest
      have hbranch : eval depth ((if v.isTrue then 1 else 2) :: site) f
          (if v.isTrue then yes else no) s₁ = some r₁ := by
        split at hrest
        next hv => rwa [if_pos hv, if_pos hv]
        next hv => rwa [if_neg hv, if_neg hv]
      obtain ⟨ns, hns, hevents'⟩ := ih hbranch
      exact ⟨_, .conditional hms hns, by simp [hevents, hevents']⟩
    | binary op left right =>
      obtain ⟨x, s₁, es, hleft, rfl⟩ | ⟨a, s₁, es, r₁, hleft, hrest, rfl⟩ := bind_cases h
      · obtain ⟨ms, hms, hevents⟩ := ih hleft
        exact ⟨_, .left_fault hms, hevents⟩
      obtain ⟨ms, hms, hevents⟩ := ih hleft
      obtain ⟨x, s₂, es', hright, rfl⟩ | ⟨b, s₂, es', r₂, hright, happly, rfl⟩ := bind_cases hrest
      · obtain ⟨ns, hns, hevents'⟩ := ih hright
        exact ⟨_, .right_fault hms hns, by simp [hevents, hevents']⟩
      obtain ⟨ns, hns, hevents'⟩ := ih hright
      cases (ofExcept_apply _ s₂).symm.trans happly
      exact ⟨_, .binary hms hns, by simp [hevents, hevents']⟩
    | lambda params body =>
      cases h
      exact ⟨_, .lambda params body, rfl⟩
    | call callee args =>
      obtain ⟨r', hcall, rfl⟩ := within_cases h
      obtain ⟨x, s₁, es, hcallee, rfl⟩ | ⟨v, s₁, es, r₁, hcallee, hrest, rfl⟩ := bind_cases hcall
      · obtain ⟨ms, hms, hevents⟩ := ih hcallee
        exact ⟨_, .callee_fault hms, hevents⟩
      obtain ⟨ms, hms, hevents⟩ := ih hcallee
      cases v with
      | closure c =>
        rw [ofExcept_asClosure, pure_bind] at hrest
        obtain ⟨x, s₂, es', hargs, rfl⟩ | ⟨vs, s₂, es', r₂, hargs, hrun, rfl⟩ := bind_cases hrest
        · obtain ⟨ns, hns, hevents'⟩ := follows_evalAll (fun i a _ _ ↦ ih) hargs
          exact ⟨_, .argument_fault hms hns, by simp [hevents, hevents']⟩
        obtain ⟨ns, hns, hevents'⟩ := follows_evalAll (fun i a _ _ ↦ ih) hargs
        obtain ⟨harity, rfl⟩ | ⟨harity, r₃, hbody, rfl⟩ := c.runWith_cases hrun
        · exact ⟨_, .arity hms hns harity, by simp [hevents, hevents']⟩
        · obtain ⟨bs, hbs, hevents''⟩ := ih hbody
          exact ⟨_, .call hms hns harity hbs, by simp [hevents, hevents', hevents'']⟩
      | _ =>
        cases hrest
        exact ⟨_, .not_callable hms (by intro c hc; cases hc), by simp [hevents]⟩

/-! ## The rules lead to evaluations -/

theorem eval_of_le {depth depth' : Nat} (hle : depth ≤ depth') {site : Site} {f : FrameId}
    {e : Expr} {s : Store} {r : Run Value} (h : eval depth site f e s = some r) :
    eval depth' site f e s = some r :=
  eval_refines hle site f e s r h

theorem evalAll_of_le {depth depth' : Nat} (hle : depth ≤ depth') {site : Site} {f : FrameId}
    {i : Nat} {es : List Expr} {s : Store} {r : Run (List Value)}
    (h : evalAll (fun i a ↦ eval depth (i :: site) f a) i es s = some r) :
    evalAll (fun i a ↦ eval depth' (i :: site) f a) i es s = some r :=
  evalAll_refines (fun i a ↦ eval_refines hle (i :: site) f a) i es s r h

/-- Once its callee has given a closure, a call evaluates the arguments and runs the closure. -/
theorem eval_call_of_closure {depth : Nat} {site : Site} {f : FrameId} {callee : Expr}
    {args : List Expr} {c : Closure} {s s₁ s₂ : Store} {es es' : List Event}
    {result : Except Fault Value}
    (hcallee : eval depth (0 :: site) f callee s = some ⟨.ok (.closure c), s₁, es⟩)
    (hrest : (evalAll (fun i a ↦ eval depth (i :: site) f a) 1 args >>=
      c.runWith (eval depth)) s₁ = some ⟨result, s₂, es'⟩) :
    eval (depth + 1) site f (.call callee args) s =
      some ⟨result.mapError (·.inside (Expr.call callee args).render), s₂, es ++ es'⟩ := by
  refine within_of (bind_of_ok hcallee ?_)
  rw [ofExcept_asClosure, pure_bind]
  exact hrest

/-- What the rules lead to is the end of an evaluation, at some depth. -/
theorem Evaluates.exists_eval {s s' : Store} {site : Site} {f : FrameId} {e : Expr}
    {result : Except Fault Value} {ms : List Moment} (h : Evaluates s site f e result s' ms) :
    ∃ depth, eval depth site f e s = some ⟨result, s', events ms⟩ := by
  induction h using Evaluates.rec (motive_2 := fun s site f i es result s' ms _ ↦
    ∃ depth, evalAll (fun i a ↦ eval depth (i :: site) f a) i es s =
      some ⟨result, s', events ms⟩) with
  | literal datum => exact ⟨1, ofExcept_apply _ _⟩
  | symbol h =>
    refine ⟨1, ?_⟩
    change lookup _ _ _ = _
    rw [lookup, h]
    rfl
  | unbound h =>
    refine ⟨1, ?_⟩
    change lookup _ _ _ = _
    rw [lookup, h]
    rfl
  | lambda params body => exact ⟨1, rfl⟩
  | definition h ih =>
    obtain ⟨depth, hvalue⟩ := ih
    exact ⟨depth + 1, (bind_of_ok (within_of hvalue) rfl).trans (by simp; rfl)⟩
  | definition_fault h ih =>
    obtain ⟨depth, hvalue⟩ := ih
    exact ⟨depth + 1, bind_of_error (within_of hvalue)⟩
  | @conditional s s₁ s₂ site f test yes no v result ms ns htest hbranch ihtest ihbranch =>
    obtain ⟨depth, htest⟩ := ihtest
    obtain ⟨depth', hbranch⟩ := ihbranch
    replace htest := eval_of_le (Nat.le_max_left depth depth') htest
    replace hbranch := eval_of_le (Nat.le_max_right depth depth') hbranch
    have hchosen : (if v.isTrue then eval (max depth depth') (1 :: site) f yes
        else eval (max depth depth') (2 :: site) f no) s₁ = some ⟨result, s₂, events ns⟩ := by
      split
      next hv => rwa [if_pos hv, if_pos hv] at hbranch
      next hv => rwa [if_neg hv, if_neg hv] at hbranch
    exact ⟨max depth depth' + 1, (bind_of_ok htest hchosen).trans (by simp)⟩
  | test_fault h ih =>
    obtain ⟨depth, htest⟩ := ih
    exact ⟨depth + 1, bind_of_error htest⟩
  | binary hleft hright ihleft ihright =>
    obtain ⟨depth, hleft⟩ := ihleft
    obtain ⟨depth', hright⟩ := ihright
    replace hleft := eval_of_le (Nat.le_max_left depth depth') hleft
    replace hright := eval_of_le (Nat.le_max_right depth depth') hright
    exact ⟨max depth depth' + 1,
      (bind_of_ok hleft (bind_of_ok hright (ofExcept_apply _ _))).trans (by simp)⟩
  | left_fault h ih =>
    obtain ⟨depth, hleft⟩ := ih
    exact ⟨depth + 1, bind_of_error hleft⟩
  | right_fault hleft hright ihleft ihright =>
    obtain ⟨depth, hleft⟩ := ihleft
    obtain ⟨depth', hright⟩ := ihright
    replace hleft := eval_of_le (Nat.le_max_left depth depth') hleft
    replace hright := eval_of_le (Nat.le_max_right depth depth') hright
    exact ⟨max depth depth' + 1, (bind_of_ok hleft (bind_of_error hright)).trans (by simp)⟩
  | @call _ _ s₂ s₃ _ _ _ _ c vs result _ _ bs hcallee hargs harity hbody ihcallee ihargs ihbody =>
    obtain ⟨depth, hcallee⟩ := ihcallee
    obtain ⟨depth', hargs⟩ := ihargs
    obtain ⟨depth'', hbody⟩ := ihbody
    let all := max depth (max depth' depth'')
    replace hcallee := eval_of_le (show depth ≤ all by omega) hcallee
    replace hargs := evalAll_of_le (show depth' ≤ all by omega) hargs
    replace hbody := eval_of_le (show depth'' ≤ all by omega) hbody
    have hrun : c.runWith (eval all) vs s₂ =
        some ⟨result, s₃, c.announcement vs ++ events bs⟩ := by
      rw [Closure.runWith_of_eq harity, hbody, Option.map_some]
    exact ⟨all + 1, (eval_call_of_closure hcallee (bind_of_ok hargs hrun)).trans (by simp)⟩
  | callee_fault h ih =>
    obtain ⟨depth, hcallee⟩ := ih
    exact ⟨depth + 1, within_of (bind_of_error hcallee)⟩
  | @not_callable s s₁ _ _ _ _ v _ hcallee hv ihcallee =>
    obtain ⟨depth, hcallee⟩ := ihcallee
    have hnot : ofExcept (v.asClosure.mapError Fault.ofCause) s₁ =
        some ⟨.error (.ofCause (.notCallable v.render)), s₁, []⟩ := by
      cases v with
      | closure c => exact absurd rfl (hv c)
      | _ => rfl
    refine ⟨depth + 1, (within_of (bind_of_ok hcallee (bind_of_error hnot))).trans ?_⟩
    rw [List.append_nil, events_visit]
    rfl
  | argument_fault hcallee hargs ihcallee ihargs =>
    obtain ⟨depth, hcallee⟩ := ihcallee
    obtain ⟨depth', hargs⟩ := ihargs
    replace hcallee := eval_of_le (Nat.le_max_left depth depth') hcallee
    replace hargs := evalAll_of_le (Nat.le_max_right depth depth') hargs
    refine ⟨max depth depth' + 1, (eval_call_of_closure hcallee (bind_of_error hargs)).trans ?_⟩
    rw [List.cons_append, events_visit, events_append]
    rfl
  | @arity _ _ s₂ _ _ _ _ c vs _ _ hcallee hargs harity ihcallee ihargs =>
    obtain ⟨depth, hcallee⟩ := ihcallee
    obtain ⟨depth', hargs⟩ := ihargs
    replace hcallee := eval_of_le (Nat.le_max_left depth depth') hcallee
    replace hargs := evalAll_of_le (Nat.le_max_right depth depth') hargs
    have hrun : c.runWith (eval (max depth depth')) vs s₂ = _ := Closure.runWith_of_ne harity
    refine ⟨max depth depth' + 1,
      (eval_call_of_closure hcallee (bind_of_ok hargs hrun)).trans ?_⟩
    rw [List.append_nil, List.cons_append, events_visit, events_append]
    rfl
  | nil => exact ⟨0, rfl⟩
  | fault h ih =>
    obtain ⟨depth, he⟩ := ih
    exact ⟨depth, bind_of_error he⟩
  | @cons _ _ _ _ _ _ _ _ _ result _ _ he hes ihe ihes =>
    obtain ⟨depth, he⟩ := ihe
    obtain ⟨depth', hes⟩ := ihes
    replace he := eval_of_le (Nat.le_max_left depth depth') he
    replace hes := evalAll_of_le (Nat.le_max_right depth depth') hes
    refine ⟨max depth depth', ?_⟩
    cases result with
    | error x => exact (bind_of_ok he (bind_of_error hes)).trans (by simp; rfl)
    | ok vs => exact (bind_of_ok he (bind_of_ok hes rfl)).trans (by simp; rfl)

/-- **The rules describe the evaluations that end**: their results, the stores they leave, and their
events. -/
theorem exists_eval_iff {site : Site} {f : FrameId} {e : Expr} {s : Store} {r : Run Value} :
    (∃ depth, eval depth site f e s = some r) ↔ r.Follows s site f e := by
  constructor
  · rintro ⟨depth, h⟩
    exact follows_eval h
  · rintro ⟨ms, h, hevents⟩
    obtain ⟨depth, heval⟩ := h.exists_eval
    rw [hevents] at heval
    exact ⟨depth, heval⟩

end LexicalLisp
