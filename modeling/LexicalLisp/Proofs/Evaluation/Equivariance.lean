import LexicalLisp.Proofs.Evaluation.Relevance

/-!
# Evaluation commutes with translations

If other names and other quoted data are put in the place of those in an expression and in the
store, its evaluation does the same as before with the other names and the other data. It ends as
before, in the translated value (`eval_translate_of_ok`) or in a fault of the same kind
(`eval_translate_of_error`), and the forms that are active at the point of failure are the
translated ones.

A translation is a correspondence that determines the second side. The number of forms is not part
of the correspondence of stores; that it is the same on both sides follows from the fact that no
evaluation changes it.
-/

namespace LexicalLisp

/-- The active form with other names and other quoted data. -/
def ActiveForm.translate (t : Translation) : ActiveForm → ActiveForm
  | definition name value => definition (t.name name) (value.translate t)
  | call callee args => call (callee.translate t) (args.map (Expr.translate t))

theorem ActiveForm.expr_translate (t : Translation) (form : ActiveForm) :
    (form.translate t).expr = form.expr.translate t := by
  cases form with
  | definition name value => rfl
  | call callee args => rw [translate, expr, expr, Expr.translate, Expr.translateAll_eq_map]

theorem ActiveForm.expr_inj {form form' : ActiveForm} (h : form.expr = form'.expr) :
    form = form' := by
  cases form <;> cases form' <;> cases h <;> rfl

theorem Correspondence.Causes.kind_eq {R : Correspondence} {cause cause' : Cause}
    (h : R.Causes cause cause') : cause'.kind = cause.kind := by
  cases h <;> rfl

/-! ## Everything is visible -/

namespace Translation

open Correspondence

variable {t : Translation}

theorem stores_self (t : Translation) (s : Store) :
    (t.correspondence fun _ ↦ True).Stores s (s.translate t) :=
  stores_of (fun _ _ _ _ _ _ _ ↦ trivial) (s.size_translate t) (s.parent?_translate t)
    fun f name _ ↦ s.get?_translate t f name

/-- What corresponds to a store is its translation, if it has counted as many forms. -/
theorem stores_eq {s s' : Store} (h : (t.correspondence fun _ ↦ True).Stores s s')
    (hforms : s'.forms = s.forms) : s' = s.translate t :=
  Store.eq_translate (size_eq h) (parent?_eq h) (fun f _ ↦ get?_eq h f trivial) hforms

private theorem activeForms_eq {visible : String → Prop} {form form' : ActiveForm}
    (h : (t.correspondence visible).ActiveForms form form') : form' = form.translate t := by
  refine ActiveForm.expr_inj ?_
  rw [ActiveForm.expr_translate]
  exact Exprs.eq_translate correspondence_translates h

/-- A failure has the same shape on the other side: it is of the same kind, the same operator has
refused an operand, and the translated forms are active. -/
theorem exists_failure_eq {visible : String → Prop} {x x' : Failure}
    (h : (t.correspondence visible).Failures x x') : ∃ cause' : Cause,
      cause'.kind = x.cause.kind ∧
        x' = ⟨cause', x.operator, x.active.map (ActiveForm.translate t)⟩ := by
  obtain ⟨cause', operator', active'⟩ := x'
  have hoperator : operator' = x.operator := h.operator
  have hactive : active' = x.active.map (ActiveForm.translate t) :=
    eq_map_of_forall₂ h.active fun _ _ _ hform ↦ activeForms_eq hform
  exact ⟨cause', h.cause.kind_eq, by rw [hoperator, hactive]⟩

end Translation

theorem Store.translate_bind (t : Translation) (s : Store) (f : FrameId) (name : String)
    (v : Value) :
    (s.bind f name v).translate t = (s.translate t).bind f (t.name name) (v.translate t) :=
  (Translation.stores_eq ((t.stores_self s).bind f name
    (Translation.values_self fun _ _ _ _ ↦ trivial)) rfl).symm

/-! ## Evaluation -/

open Correspondence

variable (t : Translation) (depth : Nat) (site : Site) (f : FrameId) (e : Expr) (s : Store)

private theorem exprs_self :
    (t.correspondence fun _ ↦ True).Exprs e (e.translate t) :=
  exprs_translate Translation.correspondence_translates fun _ _ ↦ trivial

private theorem rel_eval :
    Option.Rel ((t.correspondence fun _ ↦ True).Runs (t.correspondence fun _ ↦ True).Values)
      (eval depth site f e s) (eval depth site f (e.translate t) (s.translate t)) :=
  eval_alike depth rfl f (exprs_self t e) s _ (t.stores_self s)

theorem eval_translate_eq_none_iff :
    eval depth site f (e.translate t) (s.translate t) = none ↔ eval depth site f e s = none := by
  have hrel := rel_eval t depth site f e s
  generalize eval depth site f e s = x, eval depth site f (e.translate t) (s.translate t) = y
    at hrel ⊢
  cases hrel <;> simp

variable {t depth site f e s}

theorem eval_translate_of_ok {v : Value} {s' : Store} {es : List Event}
    (h : eval depth site f e s = some ⟨.ok v, s', es⟩) :
    eval depth site f (e.translate t) (s.translate t) =
      some ⟨.ok (v.translate t), s'.translate t, es.map (Event.translate t)⟩ := by
  have hrel := rel_eval t depth site f e s
  generalize h' : eval depth site f (e.translate t) (s.translate t) = y at hrel ⊢
  rw [h] at hrel
  cases hrel with
  | @some _ r' hr =>
    obtain ⟨result', s'', es'⟩ := r'
    obtain ⟨hresult, hstore, hevents⟩ := hr
    have hs' : s'' = s'.translate t :=
      Translation.stores_eq hstore ((eval_forms h').trans (eval_forms h).symm)
    have hes' : es' = es.map (Event.translate t) := Translation.map_events_eq hevents
    cases hresult with
    | ok hv => rw [Translation.values_eq hv, hs', hes']

/-- A descent that fails ends in the fault of its failure once it is settled. -/
theorem Descent.settle_of_failure {α : Type} {d : Descent α} {active : List ActiveForm}
    {s s' : Store} {es : List Event} {x : Failure}
    (h : (d active).run s = some ⟨.ok (.error x), s', es⟩) :
    d.settle active s = some ⟨.error x.toFault, s', es⟩ := by
  refine Action.bind_eq_some_iff.mpr (.inr ⟨_, s', es, ⟨.error x.toFault, s', []⟩, h, rfl, ?_⟩)
  rw [List.append_nil]

theorem eval_translate_of_error {fault : Fault} {s' : Store} {es : List Event}
    (h : eval depth site f e s = some ⟨.error fault, s', es⟩) :
    ∃ x : Failure, (descend depth site f e []).run s = some ⟨.ok (.error x), s', es⟩ ∧
      fault = x.toFault ∧ ∃ cause' : Cause, cause'.kind = fault.cause.kind ∧
        eval depth site f (e.translate t) (s.translate t) =
          some ⟨.error (Failure.toFault ⟨cause', x.operator,
            x.active.map (ActiveForm.translate t)⟩), s'.translate t,
            es.map (Event.translate t)⟩ := by
  have hsettle : ∀ e s, (descend depth site f e).settle [] s = eval depth site f e s :=
    fun e s ↦ congrFun (eval_agrees depth site f e []) s
  obtain ⟨x, hx, rfl, -⟩ := (descend_reports depth site f e).exists_failure ((hsettle e s).trans h)
  refine ⟨x, hx, rfl, ?_⟩
  have hrel := descend_alike depth (p := site) rfl f (exprs_self t e) [] [] .nil s _
    (t.stores_self s)
  rw [hx] at hrel
  change Option.Rel _ _ ((descend depth site f (e.translate t) []).run (s.translate t)) at hrel
  generalize hy : (descend depth site f (e.translate t) []).run (s.translate t) = y at hrel
  cases hrel with
  | @some _ r' hr =>
    obtain ⟨result', s'', es'⟩ := r'
    obtain ⟨hresult, hstore, hevents⟩ := hr
    cases hresult with
    | ok houtcome =>
      cases houtcome with
      | error hfailure =>
        have hrun := (hsettle _ _).symm.trans (Descent.settle_of_failure hy)
        obtain ⟨cause', hkind, rfl⟩ := Translation.exists_failure_eq hfailure
        have hs' : s'' = s'.translate t :=
          Translation.stores_eq hstore ((eval_forms hrun).trans (eval_forms h).symm)
        have hes' : es' = es.map (Event.translate t) := Translation.map_events_eq hevents
        exact ⟨cause', hkind, by rw [hrun, hs', hes']⟩

end LexicalLisp
