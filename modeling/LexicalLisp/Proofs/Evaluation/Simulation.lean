import LexicalLisp.Proofs.Evaluation.ActiveForms
import LexicalLisp.Proofs.Evaluation.Correspondence

/-!
# Corresponding runs

If two stores correspond, evaluating corresponding expressions in corresponding frames of them
either ends on both sides or on neither, and the two runs correspond: their results, the stores
that they leave behind, and their events (`Correspondence.eval_alike`). So evaluation depends on
nothing in which corresponding programs and stores may differ.

The texts of a trail do not tell which forms they belong to. Therefore the two sides are compared in
the evaluator that carries the active forms downwards: if one side fails, the other one fails below
corresponding forms (`Correspondence.descend_alike`), and the statement about evaluation is what
this looks like from outside.

There is one lemma for each way in which descents are put together, and the proof about evaluation
follows the shape of the two expressions. The frame of a call is made on both sides at the same
time, and it is for this step that the free numbers of corresponding stores correspond.
-/

namespace LexicalLisp.Correspondence

variable {R : Correspondence} {α β γ δ : Type}

/-- Begun in corresponding stores, the two actions end in corresponding runs, or neither ends. -/
def Alike (R : Correspondence) (V : α → β → Prop) (m : Action α) (m' : Action β) : Prop :=
  ∀ s s', R.Stores s s' → Option.Rel (R.Runs V) (m s) (m' s')

/-! ## Rules for actions -/

section Rules

variable {V : α → β → Prop} {W : γ → δ → Prop} {m : Action α} {m' : Action β}

theorem alike_unfinished : R.Alike V .unfinished .unfinished := fun _ _ _ ↦ .none

theorem alike_ofExcept {result : Except Fault α} {result' : Except Fault β}
    (h : R.Results V result result') :
    R.Alike V (Action.ofExcept result) (Action.ofExcept result') := by
  intro s s' hs
  cases h with
  | ok hv => exact .some ⟨.ok hv, hs, .nil⟩
  | error hx => exact .some ⟨.error hx, hs, .nil⟩

theorem alike_pure {a : α} {b : β} (h : V a b) : R.Alike V (pure a) (pure b) :=
  alike_ofExcept (.ok h)

theorem alike_fail {x x' : Fault} (h : R.Faults x x') :
    R.Alike V (Action.fail x) (Action.fail x') :=
  alike_ofExcept (.error h)

theorem Alike.bind {k : α → Action γ} {k' : β → Action δ} (h : R.Alike V m m')
    (hk : ∀ a b, V a b → R.Alike W (k a) (k' b)) : R.Alike W (m >>= k) (m' >>= k') := by
  intro s s' hs
  have hm := h s s' hs
  change Option.Rel (R.Runs W) (Action.bind m k s) (Action.bind m' k' s')
  simp only [Action.bind]
  generalize m s = x, m' s' = y at hm ⊢
  cases hm with
  | none => exact .none
  | @some r r' hr =>
    obtain ⟨result, s₁, es⟩ := r
    obtain ⟨result', s₁', es'⟩ := r'
    obtain ⟨hresult, hs₁, hes⟩ := hr
    cases hresult with
    | error hx => exact .some ⟨.error hx, hs₁, hes⟩
    | @ok a b hv =>
      have hrest := hk a b hv s₁ s₁' hs₁
      dsimp only
      generalize k a s₁ = z, k' b s₁' = w at hrest ⊢
      cases hrest with
      | none => exact .none
      | some hr => exact .some ⟨hr.result, hr.store, List.rel_append hes hr.events⟩

end Rules

theorem alike_emit {event event' : Event} (h : R.Events event event') :
    R.Alike (fun _ _ ↦ True) (Action.emit event) (Action.emit event') :=
  fun _ _ hs ↦ .some ⟨.ok trivial, hs, .cons h .nil⟩

theorem alike_newFrame (parent : Option FrameId) :
    R.Alike (fun f f' ↦ f' = R.frame f) (Action.update (·.newFrame parent))
      (Action.update (·.newFrame (parent.map R.frame))) :=
  fun _ _ hs ↦ .some ⟨.ok (hs.frame_size 0).symm, hs.newFrame parent, .nil⟩

theorem alike_lookup (f : FrameId) {n : String} (hn : R.visible n) :
    R.Alike R.Values (Action.lookup f n) (Action.lookup (R.frame f) (R.name n)) := by
  intro s s' hs
  have hv := hs.rel_lookup? f hn
  simp only [Action.lookup]
  generalize s.lookup? f n = x, s'.lookup? (R.frame f) (R.name n) = y at hv ⊢
  cases hv with
  | none => exact .some ⟨.error ⟨.unbound hn, .nil⟩, hs, .nil⟩
  | some hv => exact .some ⟨.ok hv, hs, .nil⟩

theorem alike_bindName (f : FrameId) (n : String) {v v' : Value} (hv : R.Values v v') :
    R.Alike (fun _ _ ↦ True) (Action.bindName f n v)
      (Action.bindName (R.frame f) (R.name n) v') :=
  (alike_emit (.bind n hv)).bind fun _ _ _ _ _ hs ↦ .some ⟨.ok trivial, hs.bind f n hv, .nil⟩

theorem alike_bindAll (f : FrameId) {vs vs' : List Value} (hvs : List.Forall₂ R.Values vs vs')
    (names : List String) :
    R.Alike (fun _ _ ↦ True) (Action.bindAll f (names.zip vs))
      (Action.bindAll (R.frame f) ((names.map R.name).zip vs')) := by
  induction hvs generalizing names with
  | nil =>
    rw [List.zip_nil_right, List.zip_nil_right]
    exact alike_pure trivial
  | cons hv _ ih =>
    cases names with
    | nil => exact alike_pure trivial
    | cons n names => exact (alike_bindName f n hv).bind fun _ _ _ ↦ ih names

/-! ## Rules for descents -/

/-- Active forms correspond if they do as expressions. -/
def ActiveForms (R : Correspondence) (form form' : ActiveForm) : Prop :=
  R.Exprs form.expr form'.expr

/-- Failures correspond if their causes and the active forms do, and if the same operator, if any,
has refused an operand. -/
structure Failures (R : Correspondence) (x x' : Failure) : Prop where
  cause : R.Causes x.cause x'.cause
  operator : x'.operator = x.operator
  active : List.Forall₂ R.ActiveForms x.active x'.active

/-- Outcomes correspond if both are values that are related, or both are corresponding failures. -/
inductive Outcomes (R : Correspondence) (V : α → β → Prop) :
    Except Failure α → Except Failure β → Prop
  | ok {a : α} {b : β} (h : V a b) : Outcomes R V (.ok a) (.ok b)
  | error {x x' : Failure} (h : R.Failures x x') : Outcomes R V (.error x) (.error x')

/-- Below corresponding forms, the two descents have corresponding runs. -/
def AlikeBelow (R : Correspondence) (V : α → β → Prop) (d : Descent α) (d' : Descent β) : Prop :=
  ∀ active active', List.Forall₂ R.ActiveForms active active' →
    R.Alike (R.Outcomes V) (d active).run (d' active').run

section Descents

variable {V : α → β → Prop} {W : γ → δ → Prop} {d : Descent α} {d' : Descent β}

theorem below_lift {m : Action α} {m' : Action β} (h : R.Alike V m m') :
    R.AlikeBelow V (monadLift m) (monadLift m') :=
  fun _ _ _ ↦ h.bind fun _ _ hv ↦ alike_pure (.ok hv)

theorem below_pure {a : α} {b : β} (h : V a b) : R.AlikeBelow V (pure a) (pure b) :=
  fun _ _ _ ↦ alike_pure (.ok h)

theorem below_failAt (op : Option Operator) {cause cause' : Cause} (h : R.Causes cause cause') :
    R.AlikeBelow V (Descent.failAt op cause) (Descent.failAt op cause') :=
  fun _ _ hactive ↦ alike_pure (.error ⟨h, rfl, hactive⟩)

theorem below_fail {cause cause' : Cause} (h : R.Causes cause cause') :
    R.AlikeBelow V (Descent.fail cause) (Descent.fail cause') := below_failAt none h

theorem AlikeBelow.bind {k : α → Descent γ} {k' : β → Descent δ} (h : R.AlikeBelow V d d')
    (hk : ∀ a b, V a b → R.AlikeBelow W (k a) (k' b)) :
    R.AlikeBelow W (d >>= k) (d' >>= k') := by
  intro active active' hactive
  refine (h active active' hactive).bind fun outcome outcome' houtcome ↦ ?_
  cases houtcome with
  | ok hv => exact hk _ _ hv active active' hactive
  | error hx => exact alike_pure (.error hx)

theorem AlikeBelow.under {form form' : ActiveForm} (hform : R.ActiveForms form form')
    (h : R.AlikeBelow V d d') :
    R.AlikeBelow V (Descent.under form d) (Descent.under form' d') :=
  fun _ _ hactive ↦ h _ _ (.cons hform hactive)

theorem Failures.toFault {x x' : Failure} (h : R.Failures x x') :
    R.Faults x.toFault x'.toFault where
  cause := h.cause
  trail := by
    rw [Failure.toFault, Failure.toFault, Failure.trail, Failure.trail, h.operator]
    refine List.rel_append (List.forall₂_same.mpr fun text htext ↦ ?_) ?_
    · obtain ⟨op, -, rfl⟩ := List.mem_map.mp htext
      exact .operator op
    · rw [List.forall₂_map_left_iff, List.forall₂_map_right_iff]
      exact h.active.imp fun _ _ hform ↦ .form hform

theorem AlikeBelow.settle (h : R.AlikeBelow V d d') : R.Alike V (d.settle []) (d'.settle []) := by
  refine (h [] [] .nil).bind fun outcome outcome' houtcome ↦ ?_
  cases houtcome with
  | ok hv => exact alike_pure hv
  | error hx => exact alike_fail hx.toFault

end Descents

/-! ## What is looked at in values -/

theorem Values.isTrue_eq {v v' : Value} (h : R.Values v v') : v'.isTrue = v.isTrue := by
  cases h <;> rfl

theorem Values.below_asClosure {v v' : Value} (h : R.Values v v') :
    R.AlikeBelow (fun c c' ↦ R.Values (.closure c) (.closure c'))
      (Descent.ofExcept v.asClosure) (Descent.ofExcept v'.asClosure) := by
  cases h with
  | closure f hl => exact below_pure (.closure f hl)
  | integer value => exact below_fail (.notCallable (.integer value))
  | bool value => exact below_fail (.notCallable (.bool value))
  | quoted hd => exact below_fail (.notCallable (.quoted hd))

theorem Literals.below_ofLiteral {d d' : Datum} (h : R.Literals d d') :
    R.AlikeBelow R.Values (Descent.ofExcept (Value.ofLiteral d))
      (Descent.ofExcept (Value.ofLiteral d')) := by
  cases h with
  | integer value => exact below_pure (.integer value)
  | bool value => exact below_pure (.bool value)
  | quote hd => exact below_pure (.quoted hd)
  | symbol hd => exact below_fail (.literal (.symbol hd))
  | list hd => exact below_fail (.literal (.list hd))

theorem below_lookup (f : FrameId) {n : String} (hn : R.visible n) :
    R.AlikeBelow R.Values (Descent.lookup f n) (Descent.lookup (R.frame f) (R.name n)) := by
  have hfound : R.Alike (Option.Rel R.Values) (Action.inspect (·.lookup? f n))
      (Action.inspect (·.lookup? (R.frame f) (R.name n))) :=
    fun s s' hs ↦ .some ⟨.ok (hs.rel_lookup? f hn), hs, .nil⟩
  refine (below_lift hfound).bind fun found found' h ↦ ?_
  cases h with
  | none => exact below_fail (.unbound hn)
  | some hv => exact below_pure hv

theorem Values.below_operand (op : Operator) {v v' : Value} (h : R.Values v v') :
    R.AlikeBelow (· = ·) (Descent.operand op v) (Descent.operand op v') := by
  cases h with
  | integer value => exact below_pure rfl
  | bool value => exact below_failAt _ (.typeMismatch (.bool value))
  | quoted hd => exact below_failAt _ (.typeMismatch (.quoted hd))
  | closure f hl => exact below_failAt _ (.typeMismatch (.closure f hl))

private theorem below_checked (op : Operator) (a b : Fixnum) (exact : Int) :
    R.AlikeBelow R.Values (Descent.ofExcept (op.checked a b exact))
      (Descent.ofExcept (op.checked a b exact)) := by
  rw [Operator.checked]
  split
  · exact below_pure (.integer _)
  · exact below_fail (.integerOverflow _)

theorem below_compute (op : Operator) (a b : Fixnum) :
    R.AlikeBelow R.Values (Descent.ofExcept (op.compute a b))
      (Descent.ofExcept (op.compute a b)) := by
  cases op with
  | add | sub | mul => exact below_checked _ _ _ _
  | div =>
    rw [Operator.compute]
    split
    · exact below_fail .divisionByZero
    · exact below_checked _ _ _ _
  | greater | less | equal => exact below_pure (.bool _)

theorem Values.below_apply (op : Operator) {v v' w w' : Value} (hv : R.Values v v')
    (hw : R.Values w w') :
    R.AlikeBelow R.Values (Descent.apply op v w) (Descent.apply op v' w') := by
  refine (hv.below_operand op).bind fun a a' ha ↦ (hw.below_operand op).bind fun b b' hb ↦ ?_
  subst ha hb
  exact below_compute op a b

/-! ## Evaluations and calls -/

theorem below_descendAll {part part' : Nat → Expr → Descent Value} {es es' : List Expr}
    (hpart : ∀ i e e', R.Exprs e e' → R.AlikeBelow R.Values (part i e) (part' i e'))
    (hes : List.Forall₂ R.Exprs es es') (i : Nat) :
    R.AlikeBelow (List.Forall₂ R.Values) (descendAll part i es) (descendAll part' i es') := by
  induction hes generalizing i with
  | nil => exact below_pure .nil
  | cons he _ ih =>
    exact (hpart i _ _ he).bind fun v v' hv ↦ (ih (i + 1)).bind fun vs vs' hvs ↦
      below_pure (.cons hv hvs)

theorem below_descendWith {body body' : Site → FrameId → Expr → Descent Value}
    (hbody : ∀ p q f e e', R.site p q → R.Exprs e e' →
      R.AlikeBelow R.Values (body p f e) (body' q (R.frame f) e'))
    {c c' : Closure} {args args' : List Value} (hc : R.Values (.closure c) (.closure c'))
    (hargs : List.Forall₂ R.Values args args') :
    R.AlikeBelow R.Values (c.descendWith body args) (c'.descendWith body' args') := by
  have hlength : args'.length = args.length := hargs.length_eq.symm
  cases hc with
  | @closure l l' f hl =>
    have harity : l'.arity = l.arity := by
      rw [Lambda.arity, hl.params, List.length_map, Lambda.arity]
    simp only [Closure.descendWith, hlength, harity]
    split
    · exact below_fail (.arity _ _)
    · refine (below_lift (alike_emit (.call _ (.closure f hl)))).bind fun _ _ _ ↦ ?_
      refine (below_lift (alike_newFrame (some f))).bind fun g g' hg ↦ ?_
      subst hg
      rw [hl.params]
      exact (below_lift (alike_bindAll g hargs l.params)).bind fun _ _ _ ↦
        hbody _ _ g _ _ (R.site_cons 0 hl.site) hl.body

/-- **Corresponding evaluations correspond**, also in the forms that are active where they fail. -/
theorem descend_alike (depth : Nat) {p q : Site} (hpq : R.site p q) (f : FrameId) {e e' : Expr}
    (he : R.Exprs e e') :
    R.AlikeBelow R.Values (descend depth p f e) (descend depth q (R.frame f) e') := by
  induction depth generalizing p q f e e' with
  | zero => exact below_lift alike_unfinished
  | succ depth ih =>
    -- The parts of the two expressions stand at corresponding sites again.
    have part : ∀ i a a', R.Exprs a a' → R.AlikeBelow R.Values (descend depth (i :: p) f a)
        (descend depth (i :: q) (R.frame f) a') :=
      fun i a a' ha ↦ ih (R.site_cons i hpq) f ha
    cases he with
    | literal hd => exact hd.below_ofLiteral
    | symbol hn => exact below_lookup f hn
    | definition n hvalue =>
      have hform : R.ActiveForms (.definition n _) (.definition (R.name n) _) :=
        .definition n hvalue
      refine ((part 0 _ _ hvalue).under hform).bind fun v v' hv ↦ ?_
      exact (below_lift (alike_bindName f n hv)).bind fun _ _ _ ↦ below_pure hv
    | conditional h₁ h₂ h₃ =>
      refine (part 0 _ _ h₁).bind fun v v' hv ↦ ?_
      rw [hv.isTrue_eq]
      split
      · exact part 1 _ _ h₂
      · exact part 2 _ _ h₃
    | binary op h₁ h₂ =>
      exact (part 0 _ _ h₁).bind fun a a' ha ↦ (part 1 _ _ h₂).bind fun b b' hb ↦
        ha.below_apply op hb
    | lambda params hbody => exact below_pure (.closure f ⟨hpq, rfl, hbody⟩)
    | call hcallee hargs =>
      have hform : R.ActiveForms (.call _ _) (.call _ _) := .call hcallee hargs
      refine .under hform ((part 0 _ _ hcallee).bind fun v v' hv ↦ ?_)
      refine hv.below_asClosure.bind fun c c' hc ↦ ?_
      exact (below_descendAll part hargs 1).bind fun vs vs' hvs ↦
        below_descendWith (fun _ _ g _ _ hsite ha ↦ ih hsite g ha) hc hvs

/-- **Corresponding evaluations have corresponding runs.** -/
theorem eval_alike (depth : Nat) {p q : Site} (hpq : R.site p q) (f : FrameId) {e e' : Expr}
    (he : R.Exprs e e') : R.Alike R.Values (eval depth p f e) (eval depth q (R.frame f) e') := by
  have h := (descend_alike depth hpq f he).settle
  rwa [eval_agrees depth p f e, eval_agrees depth q (R.frame f) e'] at h

/-- **Corresponding calls have corresponding runs.** -/
theorem run_alike (depth : Nat) {c c' : Closure} {args args' : List Value}
    (hc : R.Values (.closure c) (.closure c')) (hargs : List.Forall₂ R.Values args args') :
    R.Alike R.Values (c.run depth args) (c'.run depth args') := by
  have h := (below_descendWith (fun _ _ f _ _ hsite he ↦ descend_alike depth hsite f he)
    hc hargs).settle
  rwa [c.runWith_agrees (eval_agrees depth) args, c'.runWith_agrees (eval_agrees depth) args'] at h

end LexicalLisp.Correspondence
