import LexicalLisp.Eval

/-!
# What the primitive steps can give

Apart from looking a name up, evaluation gets its values and its faults from literals, operators and
callees. Here is what each of these steps can end in, so that no proof about evaluation needs to
look into them: a literal is carried along or malformed, a callee is a closure or not callable, and
an operator gives an integer, a truth value, or one of three causes.
-/

namespace LexicalLisp

variable {v : Value} {cause : Cause} {op : Operator} {a b : Fixnum}

/-- The causes for which the evaluation of a form can fail. -/
inductive Cause.Dynamic : Cause → Prop
  | arity (expected found : Nat) : Dynamic (.arity expected found)
  | divisionByZero : Dynamic .divisionByZero
  | integerOverflow (operation : String) : Dynamic (.integerOverflow operation)
  | notCallable (shown : String) : Dynamic (.notCallable shown)
  | typeMismatch (explanation : String) : Dynamic (.typeMismatch explanation)
  | unbound (name : String) : Dynamic (.unbound name)

/-- The causes for which a form is refused before it is evaluated. -/
inductive Cause.Static : Cause → Prop
  | unreadable (error : ReadError) : Static (.unreadable error)
  | malformed (defect : Malformation) : Static (.malformed defect)

theorem Cause.Dynamic.not_static {c : Cause} (h : c.Dynamic) : ¬c.Static := by
  cases h <;> exact nofun

/-- More text mends no evaluation. -/
theorem Cause.Dynamic.isIncomplete_eq {c : Cause} (h : c.Dynamic) : c.isIncomplete = false := by
  cases h <;> rfl

/-- The kinds of causes. -/
inductive Cause.Kind where
  | unreadable | malformed | arity | divisionByZero | integerOverflow | notCallable | typeMismatch
  | unbound | file | lineInput
deriving DecidableEq

/-- The kind of a cause, whatever it is about. -/
def Cause.kind : Cause → Kind
  | unreadable _ => .unreadable
  | malformed _ => .malformed
  | arity _ _ => .arity
  | divisionByZero => .divisionByZero
  | integerOverflow _ => .integerOverflow
  | notCallable _ => .notCallable
  | typeMismatch _ => .typeMismatch
  | unbound _ => .unbound
  | file _ => .file
  | lineInput _ => .lineInput

/-! ## Results with other causes -/

section MapError

variable {α ε ε' : Type} {result : Except ε α} {g : ε → ε'}

theorem mapError_eq_ok_iff {a : α} : result.mapError g = .ok a ↔ result = .ok a := by
  cases result with
  | ok b => exact ⟨fun h ↦ congrArg _ (Except.ok.inj h), fun h ↦ congrArg _ (Except.ok.inj h)⟩
  | error e => exact ⟨nofun, nofun⟩

theorem mapError_eq_error_iff {e' : ε'} :
    result.mapError g = .error e' ↔ ∃ e, result = .error e ∧ g e = e' := by
  cases result with
  | ok a => exact ⟨nofun, fun ⟨_, h, _⟩ ↦ nomatch h⟩
  | error e =>
    refine ⟨fun h ↦ ⟨e, rfl, Except.error.inj h⟩, fun ⟨_, h, hg⟩ ↦ ?_⟩
    cases h
    exact congrArg Except.error hg

end MapError

/-! ## Literals and callees -/

theorem Value.ne_closure_of_ofLiteral {datum : Datum} (h : Value.ofLiteral datum = .ok v)
    (c : Closure) : v ≠ .closure c := by
  cases datum <;> cases h <;> exact nofun

theorem Value.eq_malformed_of_ofLiteral {datum : Datum} (h : Value.ofLiteral datum = .error cause) :
    cause = .malformed (.literal datum) := by
  cases datum <;> cases h <;> rfl

theorem Value.eq_closure_of_asClosure {c : Closure} (h : v.asClosure = .ok c) : v = .closure c := by
  cases v <;> cases h
  rfl

theorem Value.eq_notCallable_of_asClosure (h : v.asClosure = .error cause) :
    cause = .notCallable v.render := by
  cases v <;> cases h <;> rfl

/-! ## Operators -/

theorem Value.exists_typeMismatch_of_asInteger (h : v.asInteger = .error cause) :
    ∃ explanation, cause = .typeMismatch explanation := by
  cases v <;> cases h <;> exact ⟨_, rfl⟩

namespace Operator

private theorem exists_integer_of_checked {exact : Int} (h : op.checked a b exact = .ok v) :
    ∃ i, v = .integer i := by
  rw [checked] at h
  split at h <;> cases h
  exact ⟨_, rfl⟩

private theorem exists_overflow_of_checked {exact : Int} (h : op.checked a b exact = .error cause) :
    ∃ operation, cause = .integerOverflow operation := by
  rw [checked] at h
  split at h <;> cases h
  exact ⟨_, rfl⟩

theorem integer_or_bool_of_compute (h : op.compute a b = .ok v) :
    (∃ i, v = .integer i) ∨ ∃ t, v = .bool t := by
  cases op with
  | add | sub | mul => exact .inl (exists_integer_of_checked h)
  | div =>
    rw [compute] at h
    split at h
    · cases h
    · exact .inl (exists_integer_of_checked h)
  | greater | less | equal =>
    cases h
    exact .inr ⟨_, rfl⟩

theorem division_or_overflow_of_compute (h : op.compute a b = .error cause) :
    cause = .divisionByZero ∨ ∃ operation, cause = .integerOverflow operation := by
  cases op with
  | add | sub | mul => exact .inr (exists_overflow_of_checked h)
  | div =>
    rw [compute] at h
    split at h
    · cases h
      exact .inl rfl
    · exact .inr (exists_overflow_of_checked h)
  | greater | less | equal => cases h

theorem exists_typeMismatch_of_operand {fault : Fault} (h : op.operand v = .error fault) :
    ∃ explanation, fault.cause = .typeMismatch explanation := by
  obtain ⟨cause, hv, rfl⟩ := mapError_eq_error_iff.mp h
  exact Value.exists_typeMismatch_of_asInteger hv

/-- An operator computes on the integers that its operands are, if they are integers. -/
theorem apply_cases (op : Operator) (left right : Value) :
    (∃ fault explanation, op.apply left right = .error fault ∧
      fault.cause = .typeMismatch explanation) ∨
    ∃ a b, op.apply left right = (op.compute a b).mapError .ofCause := by
  rw [apply]
  cases hleft : op.operand left with
  | error fault =>
    obtain ⟨explanation, hcause⟩ := exists_typeMismatch_of_operand hleft
    exact .inl ⟨fault, explanation, rfl, hcause⟩
  | ok a =>
    cases hright : op.operand right with
    | error fault =>
      obtain ⟨explanation, hcause⟩ := exists_typeMismatch_of_operand hright
      exact .inl ⟨fault, explanation, rfl, hcause⟩
    | ok b => exact .inr ⟨a, b, rfl⟩

theorem integer_or_bool_of_apply {left right : Value} (h : op.apply left right = .ok v) :
    (∃ i, v = .integer i) ∨ ∃ t, v = .bool t := by
  obtain ⟨fault, _, happly, -⟩ | ⟨a, b, happly⟩ := op.apply_cases left right
  · cases happly.symm.trans h
  · rw [happly] at h
    exact integer_or_bool_of_compute (mapError_eq_ok_iff.mp h)

theorem cause_of_apply {left right : Value} {fault : Fault}
    (h : op.apply left right = .error fault) :
    (∃ explanation, fault.cause = .typeMismatch explanation) ∨ fault.cause = .divisionByZero ∨
      ∃ operation, fault.cause = .integerOverflow operation := by
  obtain ⟨fault', explanation, happly, hcause⟩ | ⟨a, b, happly⟩ := op.apply_cases left right
  · cases happly.symm.trans h
    exact .inl ⟨explanation, hcause⟩
  · rw [happly] at h
    obtain ⟨cause, hcompute, rfl⟩ := mapError_eq_error_iff.mp h
    exact .inr (division_or_overflow_of_compute hcompute)

end Operator

end LexicalLisp
