import LexicalLisp.Proofs.Evaluation.Discipline
import LexicalLisp.Session
import Mathlib.Logic.Relation

/-!
# The course of a session

What can be done with a session depends on what it has become: its root, the store, and the values
that were obtained from it. A `Course` is all three, and `Course.Step` lists what its user can do.
Texts are evaluated whole or item by item, forms are evaluated once or again, names are looked up
and bound in the root, closures are applied, and the session starts over. Looking at a store or at
the expressions of a text changes nothing and is no step.

The values that a step takes were obtained before, or they are handed in from outside; which values
and which expressions may be handed in is a parameter (`Inputs`). Nobody can make up a closure.

A discipline of evaluation carries over to courses if it also speaks of roots and of what is handed
in (`Discipline.Rooted`). Then it holds of every course, and what follows is a later store
(`Discipline.Rooted.run`).
-/

namespace LexicalLisp

open Relation LexicalLisp.Action

/-! ## Steps -/

/-- What may be handed in to a session besides texts and values that were obtained from it. -/
structure Inputs where
  /-- Which expressions. -/
  expr : Expr → Prop
  /-- Which values. -/
  value : Value → Prop

/-- Some text spells the expression, under some table of operators. -/
def Expr.Spelled (e : Expr) : Prop :=
  ∃ source table d, .ok d ∈ Datum.items source ∧ ofDatum table d = .ok e

namespace Inputs

/-- All expressions, and all values but closures. -/
def any : Inputs where
  expr _ := True
  value v := ∀ c, v ≠ .closure c

/-- The expressions that can be spelled, and all values but closures. -/
def spelled : Inputs where
  expr := Expr.Spelled
  value v := ∀ c, v ≠ .closure c

end Inputs

/-- An item is a form that is recognised in a datum, or it is refused for a static cause. -/
theorem Session.buildItem_cases (session : Session) (item : Except ReadError Datum) :
    (∃ d e, item = .ok d ∧ Expr.ofDatum session.operators d = .ok e ∧
      session.buildItem item = .ok e) ∨
    ∃ cause : Cause, session.buildItem item = .error cause ∧ cause.Static := by
  cases item with
  | error error => exact .inr ⟨_, rfl, .unreadable error⟩
  | ok d =>
    cases hd : Expr.ofDatum session.operators d with
    | error defect =>
      exact .inr ⟨_, Session.buildItem_of_ofDatum_error hd, .malformed defect⟩
    | ok e => exact .inl ⟨d, e, rfl, hd, Session.buildItem_of_ofDatum hd⟩

theorem Session.spelled_of_buildItem {session : Session} {source : List Char}
    {item : Except ReadError Datum} (hitem : item ∈ Datum.items source) {e : Expr}
    (h : session.buildItem item = .ok e) : e.Spelled := by
  obtain ⟨d, e', rfl, hd, hbuild⟩ | ⟨cause, hbuild, -⟩ := session.buildItem_cases item
  · cases hbuild.symm.trans h
    exact ⟨source, session.operators, d, hitem, hd⟩
  · cases hbuild.symm.trans h

theorem Session.static_of_buildItem {session : Session} {item : Except ReadError Datum}
    {cause : Cause} (h : session.buildItem item = .error cause) : cause.Static := by
  obtain ⟨_, _, -, -, hbuild⟩ | ⟨cause', hbuild, hstatic⟩ := session.buildItem_cases item
  · cases hbuild.symm.trans h
  · cases hbuild.symm.trans h
    exact hstatic

/-- Evaluates the first items of a text, as many as are asked for. -/
def Session.firstForms (session : Session) (depth count : Nat) (source : String) :
    Action (List (Except Fault Value)) :=
  session.evalEach depth ((Datum.items source.toList).take count)

theorem Session.forms_eq_firstForms (session : Session) (depth : Nat) (source : String) :
    session.forms depth source =
      session.firstForms depth (Datum.items source.toList).length source := by
  rw [forms, firstForms, List.take_length]

/-- A session in use. -/
structure Course where
  /-- The session. -/
  session : Session
  /-- The store at this time. -/
  store : Store
  /-- The values that were obtained. -/
  obtained : List Value

namespace Course

/-- A new session, with a store of its own. -/
def start (table : OperatorTable) : Course := ⟨⟨table, 0⟩, (Store.empty.newFrame none).2, []⟩

theorem run_start (table : OperatorTable) :
    Session.start table .empty = some ⟨.ok (start table).session, (start table).store, []⟩ := rfl

/-- The course after a step that has left this store and given these values. -/
def after (c : Course) (s : Store) (vs : List Value) : Course := ⟨c.session, s, c.obtained ++ vs⟩

/-- The course after starting over. -/
def reset (c : Course) : Course :=
  ⟨⟨c.session.operators, c.store.frames.size⟩, (c.store.newFrame none).2, c.obtained⟩

theorem run_reset (c : Course) :
    c.session.reset c.store = some ⟨.ok c.reset.session, c.reset.store, [.reset]⟩ := rfl

/-- The value can be handed to the session: it comes from there, or it may come from outside. -/
def Offers (I : Inputs) (c : Course) (v : Value) : Prop := v ∈ c.obtained ∨ I.value v

/-- One thing that a user does. -/
inductive Step (I : Inputs) (c : Course) : Course → Prop
  /-- A text is evaluated up to its first fault. -/
  | evalString {depth : Nat} {source : String} {r : Run Value}
    (hr : c.session.evalString depth source c.store = some r) :
    Step I c (c.after r.store r.result.toOption.toList)
  /-- The results of the first items of a text are asked for, possibly of all. -/
  | forms {depth count : Nat} {source : String} {results : List (Except Fault Value)} {s : Store}
    {es : List Event}
    (hr : c.session.firstForms depth count source c.store = some ⟨.ok results, s, es⟩) :
    Step I c (c.after s (results.filterMap Except.toOption))
  /-- An expression enters the session. -/
  | enter {e : Expr} {r : Run Form} (hr : Session.enter e c.store = some r) :
    Step I c (c.after r.store [])
  /-- A form is evaluated, for the first time or again. -/
  | evalForm {depth : Nat} {form : Form} {r : Run Value} (hform : I.expr form.expr)
    (hr : c.session.evalForm depth form c.store = some r) :
    Step I c (c.after r.store r.result.toOption.toList)
  /-- A name is looked up in the root. -/
  | lookup {name : String} {r : Run Value} (hr : c.session.lookup name c.store = some r) :
    Step I c (c.after r.store r.result.toOption.toList)
  /-- A name is bound in the root. -/
  | bind {name : String} {v : Value} {r : Run Unit} (hv : c.Offers I v)
    (hr : c.session.bind name v c.store = some r) : Step I c (c.after r.store [])
  /-- A closure is applied. -/
  | apply {depth : Nat} {closure : Closure} {args : List Value} {r : Run Value}
    (hclosure : .closure closure ∈ c.obtained) (hargs : ∀ v ∈ args, c.Offers I v)
    (hr : closure.run depth args c.store = some r) :
    Step I c (c.after r.store r.result.toOption.toList)
  /-- The session starts over. -/
  | reset : Step I c c.reset

end Course

/-! ## Disciplines of sessions -/

/-- A discipline that sessions keep up, whatever goes wrong in them. -/
structure Discipline.Rooted (I : Inputs) extends Discipline where
  /-- Which frames may be roots. -/
  root : Store → FrameId → Prop
  root_later : ∀ {s s' f}, later s s' → root s f → root s' f
  cause_any : ∀ c, cause c
  /-- What is handed in is as demanded. -/
  value_input : ∀ s v, I.value v → value s v
  expr_input : ∀ {s f e}, root s f → I.expr e → expr s f e
  /-- What texts spell may be evaluated in a root. -/
  expr_spelled : ∀ {s f e}, root s f → e.Spelled → expr s f e
  /-- A name that resolves in a root has a value as demanded. -/
  lookup_root : ∀ {s f name v}, store s → root s f → s.lookup? f name = some v → value s v
  /-- Any name may be bound in a root. -/
  bind_root : ∀ {s f v} (name : String), store s → root s f → value s v →
    later s (s.bind f name v) ∧ store (s.bind f name v)
  /-- A form may enter. -/
  newForm : ∀ {s}, store s → later s s.newForm.2 ∧ store s.newForm.2
  /-- There may be a new root. -/
  newRoot : ∀ {s}, store s → later s (s.newFrame none).2 ∧ store (s.newFrame none).2 ∧
    root (s.newFrame none).2 s.frames.size

namespace Discipline

variable {D : Discipline} {s : Store} {α : Type} {V : Store → α → Prop} {m : Action α}

theorem obeys_attempt (h : m.Obeys D s V) :
    m.attempt.Obeys D s fun s' result ↦ ∀ a, result = .ok a → V s' a :=
  Ensures.attempt (h.mono fun _ _ hend ↦
    ⟨hend.later, hend.store, fun _ hok ↦ Except.ok.inj hok ▸ hend.value, nofun⟩)

namespace Rooted

variable {I : Inputs} {D : Rooted I} {session : Session} {source : List Char}

theorem obeys_enter (hs : D.store s) (e : Expr) :
    (Session.enter e).Obeys D.toDiscipline s fun _ form ↦ form.expr = e := by
  obtain ⟨hlater, hstore⟩ := D.newForm hs
  have hform : (pure ⟨s.newForm.1, e⟩ : Action Form).Obeys D.toDiscipline s.newForm.2
      fun _ form ↦ form.expr = e := obeys_pure hstore rfl
  exact ensures_update_bind (hform.mono fun _ _ h ↦ h.of_later hlater)

theorem obeys_evalForm (depth : Nat) (form : Form) (hs : D.store s)
    (he : D.expr s session.root form.expr) :
    (session.evalForm depth form).Obeys D.toDiscipline s D.value :=
  ensures_emit_bind (eval_obeys D.toDiscipline depth _ session.root form.expr s hs he)

theorem obeys_evalItem (depth : Nat) {item : Except ReadError Datum}
    (hitem : item ∈ Datum.items source) (hs : D.store s) (hroot : D.root s session.root) :
    (session.evalItem depth item).Obeys D.toDiscipline s D.value := by
  have hbuild : (ofExcept ((session.buildItem item).mapError .ofCause)).Obeys D.toDiscipline s
      fun _ e ↦ e.Spelled :=
    obeys_mapError hs (fun _ he ↦ Session.spelled_of_buildItem hitem he) fun c _ ↦ D.cause_any c
  refine obeys_bind hbuild fun e s₁ h₁ hs₁ he ↦ ?_
  refine obeys_bind (obeys_enter hs₁ e) fun form s₂ h₂ hs₂ hform ↦ ?_
  have hroot₂ : D.root s₂ session.root := D.root_later h₂ (D.root_later h₁ hroot)
  exact obeys_evalForm depth form hs₂ (D.expr_spelled hroot₂ (hform ▸ he))

theorem obeys_evalItems (depth : Nat) {last : Option Value}
    {items : List (Except ReadError Datum)} (hitems : items ⊆ Datum.items source)
    (hs : D.store s) (hroot : D.root s session.root) (hlast : ∀ v, last = some v → D.value s v) :
    (session.evalItems depth last items).Obeys D.toDiscipline s D.value := by
  induction items generalizing s last with
  | nil =>
    cases last with
    | some v => exact obeys_pure hs (hlast v rfl)
    | none => exact ensures_fail (outcome_error hs (D.cause_any _))
  | cons item items ih =>
    have hitem : item ∈ Datum.items source := hitems List.mem_cons_self
    refine obeys_bind (obeys_evalItem depth hitem hs hroot) fun v s' h hs' hv ↦ ?_
    exact ih (List.subset_of_cons_subset hitems) hs' (D.root_later h hroot)
      fun w hw ↦ Option.some.inj hw ▸ hv

theorem obeys_evalEach (depth : Nat) {items : List (Except ReadError Datum)}
    (hitems : items ⊆ Datum.items source) (hs : D.store s) (hroot : D.root s session.root) :
    (session.evalEach depth items).Obeys D.toDiscipline s fun s' results ↦
      ∀ v, .ok v ∈ results → D.value s' v := by
  induction items generalizing s with
  | nil => exact obeys_pure hs fun v hv ↦ nomatch hv
  | cons item items ih =>
    have hitem : item ∈ Datum.items source := hitems List.mem_cons_self
    refine obeys_bind (obeys_attempt (obeys_evalItem depth hitem hs hroot))
      fun result s₁ h₁ hs₁ hresult ↦ ?_
    refine obeys_bind (ih (List.subset_of_cons_subset hitems) hs₁ (D.root_later h₁ hroot))
      fun results s₂ h₂ hs₂ hresults ↦ ?_
    refine obeys_pure hs₂ fun v hv ↦ ?_
    rcases List.mem_cons.mp hv with hv | hv
    · exact D.value_later h₂ (hresult v hv.symm)
    · exact hresults v hv

/-! ## Courses -/

/-- The discipline holds of the store, the root and the values of a course. -/
structure Holds (D : Rooted I) (c : Course) : Prop where
  store : D.store c.store
  root : D.root c.store c.session.root
  obtained : ∀ v ∈ c.obtained, D.value c.store v

variable {c c' : Course}

theorem Holds.offered (h : D.Holds c) {v : Value} (hv : c.Offers I v) : D.value c.store v := by
  rcases hv with hv | hv
  · exact h.obtained v hv
  · exact D.value_input c.store v hv

theorem Holds.after (h : D.Holds c) {s : Store} {vs : List Value} (hlater : D.later c.store s)
    (hs : D.store s) (hvs : ∀ v ∈ vs, D.value s v) :
    D.later c.store (c.after s vs).store ∧ D.Holds (c.after s vs) where
  left := hlater
  right := {
    store := hs
    root := D.root_later hlater h.root
    obtained := fun v hv ↦ by
      rcases List.mem_append.mp hv with hv | hv
      · exact D.value_later hlater (h.obtained v hv)
      · exact hvs v hv }

/-- The course goes on where an evaluation has ended, with its value if there was no fault. -/
theorem Holds.after_run (h : D.Holds c) {r : Run Value}
    (hr : D.Outcome c.store D.value r.result r.store) :
    D.later c.store (c.after r.store r.result.toOption.toList).store ∧
      D.Holds (c.after r.store r.result.toOption.toList) := by
  refine h.after hr.later hr.store fun v hv ↦ hr.value v ?_
  cases hresult : r.result with
  | error fault =>
    rw [hresult] at hv
    cases hv
  | ok w =>
    rw [hresult] at hv
    rw [List.mem_singleton.mp hv]

/-- A step keeps the discipline up. -/
theorem Holds.step (h : D.Holds c) (hstep : c.Step I c') :
    D.later c.store c'.store ∧ D.Holds c' := by
  cases hstep with
  | @evalString depth source r hr =>
    have hend : (c.session.evalString depth source).Obeys D.toDiscipline c.store D.value :=
      obeys_evalItems depth (List.Subset.refl _) h.store h.root fun _ hv ↦ nomatch hv
    exact h.after_run (hend r hr)
  | @forms depth count source results s es hr =>
    have hend := obeys_evalEach depth (List.take_subset _ _) h.store h.root _ hr
    refine h.after hend.later hend.store fun v hv ↦ ?_
    obtain ⟨result, hresult, hok⟩ := List.mem_filterMap.mp hv
    cases result with
    | error fault => cases hok
    | ok _ =>
      cases hok
      exact hend.value results rfl v hresult
  | enter hr =>
    cases hr
    obtain ⟨hlater, hstore⟩ := D.newForm h.store
    exact h.after hlater hstore fun _ hv ↦ nomatch hv
  | evalForm hform hr =>
    exact h.after_run (obeys_evalForm _ _ h.store (D.expr_input h.root hform) _ hr)
  | lookup hr =>
    refine h.after_run (ensures_lookup (fun v hv ↦ ?_) (fun _ ↦ ?_) _ hr)
    · exact outcome_ok h.store (D.lookup_root h.store h.root hv)
    · exact outcome_error h.store (D.cause_any _)
  | bind hv hr =>
    cases hr
    obtain ⟨hlater, hstore⟩ := D.bind_root _ h.store h.root (h.offered hv)
    exact h.after hlater hstore fun _ hv ↦ nomatch hv
  | apply hclosure hargs hr =>
    exact h.after_run (Closure.run_obeys _ _ h.store (h.obtained _ hclosure)
      (fun v hv ↦ h.offered (hargs v hv)) _ hr)
  | reset =>
    obtain ⟨hlater, hstore, hroot⟩ := D.newRoot h.store
    exact ⟨hlater, hstore, hroot, fun v hv ↦ D.value_later hlater (h.obtained v hv)⟩

/-- **Every course keeps the discipline up.** -/
theorem Holds.run (h : D.Holds c) (hrun : ReflTransGen (Course.Step I) c c') :
    D.later c.store c'.store ∧ D.Holds c' := by
  induction hrun with
  | refl => exact ⟨D.later_refl _, h⟩
  | tail _ hstep ih =>
    obtain ⟨hlater, hc⟩ := ih
    obtain ⟨hlater', hc'⟩ := hc.step hstep
    exact ⟨D.later_trans hlater hlater', hc'⟩

end Rooted

end Discipline

end LexicalLisp
