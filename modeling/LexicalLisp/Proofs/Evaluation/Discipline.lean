import LexicalLisp.Proofs.Evaluation.Ensures
import LexicalLisp.Proofs.Evaluation.Outcomes

/-!
# Disciplines

Many facts about evaluation have one form. Something holds of the store, of the values in
circulation and of the expressions that are evaluated, and however deep closures call each other, it
goes on holding; and so the causes of faults are limited. A `Discipline` is such a fact in terms of
single steps: what it demands of an expression it demands of the parts, a binding keeps it up, and a
call may enter the body of a closure.

That a discipline is kept by all evaluations and calls is shown once (`eval_obeys`,
`Closure.run_obeys`). An instance has to deal with the single steps only.

Two points need care. Stores go on, so a discipline says which stores may follow which, and what is
known of values and expressions is known in all later stores. And the value of a definition may be a
lambda that refers to the name about to be bound; therefore the closure that it makes is judged in
the store after the binding.
-/

namespace LexicalLisp

open LexicalLisp.Action

/-- Whether an expression is a lambda. -/
def Expr.isLambda : Expr → Bool
  | lambda .. => true
  | _ => false

namespace Store

/-- The store after several bindings in one frame. -/
def bindAll (s : Store) (f : FrameId) (bs : List (String × Value)) : Store :=
  bs.foldl (fun s b ↦ s.bind f b.1 b.2) s

theorem bindAll_induction {P : Store → Prop} {s : Store} {f : FrameId}
    {bs : List (String × Value)} (hs : P s)
    (hbind : ∀ s', P s' → ∀ b ∈ bs, P (s'.bind f b.1 b.2)) : P (s.bindAll f bs) := by
  induction bs generalizing s with
  | nil => exact hs
  | cons b bs ih =>
    exact ih (hbind s hs b List.mem_cons_self) fun s' hs' a ha ↦
      hbind s' hs' a (List.mem_cons_of_mem b ha)

/-- The store in which the body of a closure is evaluated: a new frame binds the parameters. -/
def enter (s : Store) (c : Closure) (args : List Value) : Store :=
  (s.newFrame (some c.frame)).2.bindAll s.frames.size (c.lambda.params.zip args)

end Store

theorem Action.ensures_bindAll_bind {α : Type} {s : Store} {f : FrameId}
    {bs : List (String × Value)} {k : Unit → Action α} {Q : Except Fault α → Store → Prop}
    (h : (k ()).Ensures (s.bindAll f bs) Q) : (bindAll f bs >>= k).Ensures s Q := by
  induction bs generalizing s with
  | nil =>
    rw [bindAll, pure_bind]
    exact h
  | cons b bs ih =>
    rw [bindAll, bindName, bind_assoc, bind_assoc]
    exact ensures_emit_bind (ensures_update_bind (ih h))

/-- A property that evaluation keeps up, step by step. -/
structure Discipline where
  /-- What holds of the store. -/
  store : Store → Prop
  /-- Which stores may follow. -/
  later : Store → Store → Prop
  /-- What holds of values. -/
  value : Store → Value → Prop
  /-- Which expressions may be evaluated in a frame. -/
  expr : Store → FrameId → Expr → Prop
  /-- Which causes a fault may have. -/
  cause : Cause → Prop
  later_refl : ∀ s, later s s
  later_trans : ∀ {s s' s''}, later s s' → later s' s'' → later s s''
  value_later : ∀ {s s' v}, later s s' → value s v → value s' v
  expr_later : ∀ {s s' f e}, later s s' → expr s f e → expr s' f e
  /-- Integers and truth values circulate freely. -/
  integer : ∀ s i, value s (.integer i)
  bool : ∀ s t, value s (.bool t)
  /-- A fault may come from a step that looks no name up. -/
  cause_of_dynamic : ∀ {c : Cause}, c.Dynamic → (∀ name, c ≠ .unbound name) → cause c
  literal : ∀ {s f datum}, expr s f (.literal datum) →
    (∀ v, Value.ofLiteral datum = .ok v → value s v) ∧
      ∀ c, Value.ofLiteral datum = .error c → cause c
  symbol : ∀ {s f name}, store s → expr s f (.symbol name) →
    (∀ v, s.lookup? f name = some v → value s v) ∧
      (s.lookup? f name = none → cause (.unbound name))
  conditional : ∀ {s f test yes no}, expr s f (.conditional test yes no) →
    expr s f test ∧ expr s f yes ∧ expr s f no
  binary : ∀ {s f op left right}, expr s f (.binary op left right) →
    expr s f left ∧ expr s f right
  call : ∀ {s f callee args}, expr s f (.call callee args) →
    expr s f callee ∧ ∀ a ∈ args, expr s f a
  lambda : ∀ {s f params body} (site : Site), expr s f (.lambda params body) →
    value s (.closure ⟨⟨site, params, body⟩, f⟩)
  /-- The value of a definition may be evaluated, unless it is a lambda. -/
  definition : ∀ {s f name e}, expr s f (.definition name e) → e.isLambda = false → expr s f e
  /-- A definition may bind a value. -/
  bind : ∀ {s f name e v}, store s → expr s f (.definition name e) → value s v →
    later s (s.bind f name v) ∧ store (s.bind f name v)
  /-- A definition may bind the closure of its lambda, which counts as a value afterwards. -/
  bind_lambda : ∀ {s f name params body} (site : Site), store s →
    expr s f (.definition name (.lambda params body)) →
    let v := Value.closure ⟨⟨site, params, body⟩, f⟩
    later s (s.bind f name v) ∧ store (s.bind f name v) ∧ value (s.bind f name v) v
  /-- A call may enter the body of a closure. -/
  enter : ∀ {s c args}, store s → value s (.closure c) → (∀ v ∈ args, value s v) →
    args.length = c.lambda.arity →
    later s (s.enter c args) ∧ store (s.enter c args) ∧
      expr (s.enter c args) s.frames.size c.lambda.body

namespace Discipline

variable {α : Type}

/-- What holds wherever an action ends that keeps up a discipline. -/
structure Outcome (D : Discipline) (s : Store) (V : Store → α → Prop) (result : Except Fault α)
    (s' : Store) : Prop where
  later : D.later s s'
  store : D.store s'
  value : ∀ a, result = .ok a → V s' a
  cause : ∀ fault, result = .error fault → D.cause fault.cause

end Discipline

/-- Wherever the action ends, it has kept up the discipline, and its value is as demanded. -/
def Action.Obeys {α : Type} (m : Action α) (D : Discipline) (s : Store) (V : Store → α → Prop) :
    Prop := m.Ensures s (D.Outcome s V)

namespace Discipline

variable {D : Discipline} {s s' : Store} {α β : Type} {V : Store → α → Prop}
  {W : Store → β → Prop} {m : Action α}

theorem outcome_ok (hs : D.store s) {a : α} (ha : V s a) : D.Outcome s V (.ok a) s where
  later := D.later_refl s
  store := hs
  value _ h := Except.ok.inj h ▸ ha
  cause _ h := nomatch h

theorem outcome_error (hs : D.store s) {fault : Fault} (h : D.cause fault.cause) :
    D.Outcome s V (.error fault) s where
  later := D.later_refl s
  store := hs
  value _ h := nomatch h
  cause _ heq := Except.error.inj heq ▸ h

theorem Outcome.of_later (h : D.later s s') {result : Except Fault α} {s'' : Store}
    (h' : D.Outcome s' V result s'') : D.Outcome s V result s'' :=
  { h' with later := D.later_trans h h'.later }

theorem obeys_pure (hs : D.store s) {a : α} (ha : V s a) : (pure a : Action α).Obeys D s V :=
  ensures_pure (outcome_ok hs ha)

theorem obeys_ofExcept (hs : D.store s) {result : Except Fault α}
    (hok : ∀ a, result = .ok a → V s a) (herror : ∀ x, result = .error x → D.cause x.cause) :
    (Action.ofExcept result).Obeys D s V := by
  refine ensures_ofExcept ?_
  cases result with
  | ok a => exact outcome_ok hs (hok a rfl)
  | error fault => exact outcome_error hs (herror fault rfl)

theorem obeys_mapError (hs : D.store s) {result : Except Cause α}
    (hok : ∀ a, result = .ok a → V s a) (herror : ∀ c, result = .error c → D.cause c) :
    (Action.ofExcept (result.mapError .ofCause)).Obeys D s V := by
  cases result with
  | ok a => exact obeys_pure hs (hok a rfl)
  | error c => exact ensures_fail (outcome_error hs (herror c rfl))

theorem obeys_bind {k : α → Action β} (hm : m.Obeys D s V)
    (hk : ∀ a s', D.later s s' → D.store s' → V s' a → (k a).Obeys D s' W) :
    (m >>= k).Obeys D s W := by
  refine Ensures.bind hm (fun fault s' h ↦ ?_) fun a s' h ↦ ?_
  · exact { later := h.later, store := h.store, value := nofun,
            cause := fun x hx ↦ h.cause x (by cases hx; rfl) }
  · exact (hk a s' h.later h.store (h.value a rfl)).mono fun _ _ h' ↦ h'.of_later h.later

theorem obeys_within (form : Expr) (h : m.Obeys D s V) : (within form m).Obeys D s V := by
  refine Ensures.within form (Ensures.mono h fun result s' h' ↦ ?_)
  cases result with
  | ok a => exact h'
  | error fault =>
    exact { h' with value := nofun, cause := fun x hx ↦ by cases hx; exact h'.cause fault rfl }

theorem obeys_evalAll {part : Nat → Expr → Action Value} (es : List Expr) (i : Nat)
    (hs : D.store s)
    (hpart : ∀ i, ∀ e ∈ es, ∀ s', D.later s s' → D.store s' → (part i e).Obeys D s' D.value) :
    (evalAll part i es).Obeys D s fun s' vs ↦ ∀ v ∈ vs, D.value s' v := by
  induction es generalizing s i with
  | nil => exact obeys_pure hs fun v hv ↦ nomatch hv
  | cons e es ih =>
    refine obeys_bind (hpart i e List.mem_cons_self s (D.later_refl s) hs)
      fun v s₁ h₁ hs₁ hv ↦ ?_
    refine obeys_bind (ih (i + 1) hs₁ fun j a ha t ht ↦
      hpart j a (List.mem_cons_of_mem e ha) t (D.later_trans h₁ ht)) fun vs s₂ h₂ hs₂ hvs ↦ ?_
    refine obeys_pure hs₂ fun w hw ↦ ?_
    rcases List.mem_cons.mp hw with rfl | hw
    · exact D.value_later h₂ hv
    · exact hvs w hw

theorem cause_of_apply {op : Operator} {left right : Value} {fault : Fault}
    (h : op.apply left right = .error fault) : D.cause fault.cause := by
  obtain ⟨_, h⟩ | h | ⟨_, h⟩ := Operator.cause_of_apply h
  · rw [h]
    exact D.cause_of_dynamic (.typeMismatch _) nofun
  · rw [h]
    exact D.cause_of_dynamic .divisionByZero nofun
  · rw [h]
    exact D.cause_of_dynamic (.integerOverflow _) nofun

theorem value_of_apply {op : Operator} {left right v : Value} (h : op.apply left right = .ok v) :
    D.value s v := by
  obtain ⟨i, rfl⟩ | ⟨t, rfl⟩ := Operator.integer_or_bool_of_apply h
  · exact D.integer s i
  · exact D.bool s t

theorem runWith_obeys {evalBody : Site → FrameId → Expr → Action Value}
    (hbody : ∀ site f e s, D.store s → D.expr s f e → (evalBody site f e).Obeys D s D.value)
    {c : Closure} {args : List Value} (hs : D.store s) (hc : D.value s (.closure c))
    (hargs : ∀ v ∈ args, D.value s v) : (c.runWith evalBody args).Obeys D s D.value := by
  refine ensures_runWith (fun _ ↦ ?_) fun harity ↦ ensures_bindAll_bind ?_
  · exact outcome_error hs (D.cause_of_dynamic (.arity _ _) nofun)
  · obtain ⟨hlater, hstore, hexpr⟩ := D.enter hs hc hargs harity
    exact (hbody _ _ _ _ hstore hexpr).mono fun _ _ h ↦ h.of_later hlater

/-- If evaluation obeys the discipline, the value of a definition can be bound, and it is a value as
demanded after the binding. -/
theorem obeys_value_of_definition {depth : Nat}
    (heval : ∀ site f e s, D.store s → D.expr s f e → (eval depth site f e).Obeys D s D.value)
    (site : Site) {f : FrameId} {name : String} {value : Expr} (hs : D.store s)
    (he : D.expr s f (.definition name value)) :
    (eval depth site f value).Obeys D s fun s' v ↦ D.later s' (s'.bind f name v) ∧
      D.store (s'.bind f name v) ∧ D.value (s'.bind f name v) v := by
  -- The closure of a lambda may need the binding to be a value; what else is bound is one before.
  cases hlambda : value.isLambda with
  | false =>
    refine (heval site f value s hs (D.definition he hlambda)).mono fun _ s' h ↦
      { h with value := fun v hv ↦ ?_ }
    obtain ⟨hlater, hstore⟩ := D.bind h.store (D.expr_later h.later he) (h.value v hv)
    exact ⟨hlater, hstore, D.value_later hlater (h.value v hv)⟩
  | true =>
    cases value with
    | lambda params body =>
      cases depth with
      | zero => exact ensures_unfinished
      | succ depth => exact obeys_pure hs (D.bind_lambda _ hs he)
    | _ => cases hlambda

end Discipline

open LexicalLisp.Discipline

/-- **Evaluation obeys every discipline.** -/
theorem eval_obeys (D : Discipline) (depth : Nat) (site : Site) (f : FrameId) (e : Expr) (s : Store)
    (hs : D.store s) (he : D.expr s f e) : (eval depth site f e).Obeys D s D.value := by
  -- The depth bounds how far expressions and calls are nested; bodies of closures are no parts of
  -- the expression.
  induction depth generalizing site f e s with
  | zero => exact ensures_unfinished
  | succ depth ih =>
    cases e with
    | literal datum =>
      obtain ⟨hok, herror⟩ := D.literal he
      exact obeys_mapError hs hok herror
    | symbol name =>
      obtain ⟨hbound, hunbound⟩ := D.symbol hs he
      exact ensures_lookup (fun v hv ↦ outcome_ok hs (hbound v hv))
        fun hnone ↦ outcome_error hs (hunbound hnone)
    | definition name value =>
      have hvalue := obeys_value_of_definition ih (0 :: site) hs he
      refine obeys_bind (obeys_within _ hvalue) fun v s₁ _ _ ⟨hlater, hstore, hv⟩ ↦ ?_
      rw [bindName, bind_assoc]
      exact ensures_emit_bind (ensures_update_bind
        ((obeys_pure hstore hv).mono fun _ _ h ↦ h.of_later hlater))
    | conditional test yes no =>
      obtain ⟨htest, hyes, hno⟩ := D.conditional he
      refine obeys_bind (ih _ f test s hs htest) fun v s₁ h₁ hs₁ _ ↦ ?_
      split
      · exact ih _ f yes s₁ hs₁ (D.expr_later h₁ hyes)
      · exact ih _ f no s₁ hs₁ (D.expr_later h₁ hno)
    | binary op left right =>
      obtain ⟨hleft, hright⟩ := D.binary he
      refine obeys_bind (ih _ f left s hs hleft) fun a s₁ h₁ hs₁ _ ↦ ?_
      refine obeys_bind (ih _ f right s₁ hs₁ (D.expr_later h₁ hright)) fun b s₂ _ hs₂ _ ↦ ?_
      exact obeys_ofExcept hs₂ (fun _ h ↦ value_of_apply h) fun _ h ↦ cause_of_apply h
    | lambda params body => exact obeys_pure hs (D.lambda site he)
    | call callee args =>
      obtain ⟨hcallee, hargs⟩ := D.call he
      refine obeys_within _ (obeys_bind (ih _ f callee s hs hcallee) fun v s₁ h₁ hs₁ hv ↦ ?_)
      have hclosure : (Action.ofExcept (v.asClosure.mapError Fault.ofCause)).Obeys D s₁
          fun s' c ↦ D.value s' (.closure c) := by
        refine obeys_mapError hs₁ (fun c h ↦ ?_) fun c h ↦ ?_
        · rwa [← Value.eq_closure_of_asClosure h]
        · rw [Value.eq_notCallable_of_asClosure h]
          exact D.cause_of_dynamic (.notCallable _) nofun
      refine obeys_bind hclosure fun c s₂ h₂ hs₂ hc ↦ ?_
      have hall : (evalAll (fun i a ↦ eval depth (i :: site) f a) 1 args).Obeys D s₂
          fun s' vs ↦ ∀ v ∈ vs, D.value s' v := by
        refine obeys_evalAll args 1 hs₂ fun i a ha t ht hst ↦ ih (i :: site) f a t hst ?_
        exact D.expr_later (D.later_trans (D.later_trans h₁ h₂) ht) (hargs a ha)
      exact obeys_bind hall fun vs s₃ h₃ hs₃ hvs ↦
        runWith_obeys ih hs₃ (D.value_later h₃ hc) hvs

/-- Calls of closures obey every discipline. -/
theorem Closure.run_obeys (D : Discipline) (depth : Nat) {c : Closure} {args : List Value}
    {s : Store} (hs : D.store s) (hc : D.value s (.closure c)) (hargs : ∀ v ∈ args, D.value s v) :
    (c.run depth args).Obeys D s D.value := runWith_obeys (eval_obeys D depth) hs hc hargs

end LexicalLisp
