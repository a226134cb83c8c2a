import LexicalLisp.Eval
import LexicalLisp.Proofs.Evaluation.Endings

/-!
# Exact arithmetic

A formula is an expression of integers and operators alone. Over the unbounded integers it has an
exact value, unless an operand somewhere is a truth value or a divisor is zero. Evaluation gives
this value as long as no operator refuses its operands, and otherwise it ends in the fault of the
operator that refuses first in post-order, the order in which a formula is worked out from left to
right (`eval_formula`).

What an operator refuses is said in terms of exact values (`Operator.Refuses`): a truth value, a
zero divisor, and integers whose exact result is out of range. Nothing in it is bounded, so a
wrapped number could not pass for a result.
-/

namespace LexicalLisp

/-! ## Operators over the unbounded integers -/

/-- A truth value, or an integer without bounds. -/
inductive Exact where
  | integer (i : Int)
  | bool (t : Bool)
deriving DecidableEq

/-- What a value stands for, if it is an integer or a truth value. -/
def Value.toExact? : Value → Option Exact
  | integer i => some (.integer i.val)
  | bool t => some (.bool t)
  | quoted _ | closure _ => none

/-- Why an operator has no result on its operands. -/
inductive Refusal where
  /-- An operand is a truth value. -/
  | operand (op : Operator) (t : Bool)
  /-- The divisor is zero. -/
  | divisor
  /-- The exact result is out of range. -/
  | range (op : Operator) (a b : Int)
deriving DecidableEq

/-- The fault that a refusal leads to. -/
def Refusal.fault : Refusal → Fault
  | operand op t =>
    ⟨.typeMismatch ("expected integer, got boolean " ++ if t then "#t" else "#f"),
      ["operator " ++ op.symbol]⟩
  | divisor => ⟨.divisionByZero, []⟩
  | range op a b => ⟨.integerOverflow s!"({op.symbol} {a} {b})", []⟩

namespace Operator

/-- The result of an operator on integers without bounds. There is no quotient by zero. -/
def toExact? (op : Operator) (a b : Int) : Option Exact :=
  match op with
  | add => some (.integer (a + b))
  | sub => some (.integer (a - b))
  | mul => some (.integer (a * b))
  | div => if b = 0 then none else some (.integer (a.tdiv b))
  | greater => some (.bool (a > b))
  | less => some (.bool (a < b))
  | equal => some (.bool (a = b))

/-- The result of an operator on exact values, if they are integers and it has one. -/
def result? (op : Operator) : Exact → Exact → Option Exact
  | .integer a, .integer b => op.toExact? a b
  | _, _ => none

/-- The operator refuses the operands: one of them is a truth value, and if both are, it is the left
one that counts; or they are integers, and the divisor is zero or the exact result out of range. -/
inductive Refuses : Operator → Exact → Exact → Refusal → Prop
  | left (op : Operator) (t : Bool) (y : Exact) : Refuses op (.bool t) y (.operand op t)
  | right (op : Operator) (a : Int) (t : Bool) :
    Refuses op (.integer a) (.bool t) (.operand op t)
  | divisor (a : Int) : Refuses .div (.integer a) (.integer 0) .divisor
  | range {op : Operator} {a b i : Int} (hi : op.toExact? a b = some (.integer i))
    (hrange : i < -9223372036854775808 ∨ 9223372036854775808 ≤ i) :
    Refuses op (.integer a) (.integer b) (.range op a b)

/-- The refusal of the operands, if they are refused. -/
def refusal? (op : Operator) : Exact → Exact → Option Refusal
  | .bool t, _ | .integer _, .bool t => some (.operand op t)
  | .integer a, .integer b =>
    match op.toExact? a b with
    | none => some .divisor
    | some (.bool _) => none
    | some (.integer i) => if (Fixnum.ofInt? i).isSome then none else some (.range op a b)

variable {op : Operator} {a b : Int}

theorem toExact?_eq_none_iff : op.toExact? a b = none ↔ op = .div ∧ b = 0 := by
  cases op <;> simp [toExact?]

theorem refusal?_eq_some_iff {x y : Exact} {refusal : Refusal} :
    op.refusal? x y = some refusal ↔ op.Refuses x y refusal := by
  constructor
  · intro h
    rw [refusal?.eq_def] at h
    split at h
    next t => exact Option.some.inj h ▸ .left op t y
    next a t => exact Option.some.inj h ▸ .right op a t
    next a b =>
      split at h
      next hnone =>
        obtain ⟨rfl, rfl⟩ := toExact?_eq_none_iff.mp hnone
        exact Option.some.inj h ▸ .divisor a
      next => cases h
      next i hi =>
        split at h
        next => cases h
        next hrange =>
          rw [Bool.not_eq_true, Option.isSome_eq_false_iff, Option.isNone_iff_eq_none,
            Fixnum.ofInt?_eq_none_iff] at hrange
          exact Option.some.inj h ▸ .range hi hrange
  · intro h
    cases h with
    | left => rfl
    | right => rfl
    | divisor => rfl
    | range hi hrange =>
      have hnone := Fixnum.ofInt?_eq_none_iff.mpr hrange
      simp [refusal?, hi, hnone]

end Operator

/-! ## Formulas -/

/-- An expression of integers and operators. -/
inductive Formula where
  | integer (i : Fixnum)
  | operation (op : Operator) (left right : Formula)

namespace Formula

/-- The formula as an expression. -/
def expr : Formula → Expr
  | integer i => .literal (.integer i)
  | operation op left right => .binary op left.expr right.expr

/-- The exact value of a formula, however large the integers become on the way. -/
def toExact? : Formula → Option Exact
  | integer i => some (.integer i.val)
  | operation op left right => do
    let x ← left.toExact?
    let y ← right.toExact?
    op.result? x y

/-- The formula and its parts, each behind its own parts and the left ones first. -/
def postorder : Formula → List Formula
  | integer i => [integer i]
  | operation op left right => left.postorder ++ right.postorder ++ [operation op left right]

/-- The number of operators on the longest way down. -/
def height : Formula → Nat
  | integer _ => 0
  | operation _ left right => max left.height right.height + 1

/-- The outermost operator of the formula refuses its operands. -/
inductive Refuses : Formula → Refusal → Prop
  | operation {op : Operator} {left right : Formula} {x y : Exact} {refusal : Refusal}
    (hleft : left.toExact? = some x) (hright : right.toExact? = some y)
    (h : op.Refuses x y refusal) : Refuses (operation op left right) refusal

/-- The refusal of the outermost operator, if it refuses its operands. -/
def refusal? : Formula → Option Refusal
  | integer _ => none
  | operation op left right => do
    let x ← left.toExact?
    let y ← right.toExact?
    op.refusal? x y

/-- The first refusal in post-order. -/
def firstRefusal? (t : Formula) : Option Refusal := t.postorder.findSome? refusal?

theorem refusal?_eq_some_iff {t : Formula} {refusal : Refusal} :
    t.refusal? = some refusal ↔ t.Refuses refusal := by
  cases t with
  | integer i =>
    constructor
    · nofun
    · nofun
  | operation op left right =>
    simp only [refusal?, Option.bind_eq_bind, Option.bind_eq_some_iff,
      Operator.refusal?_eq_some_iff]
    constructor
    · rintro ⟨x, hleft, y, hright, h⟩
      exact .operation hleft hright h
    · rintro ⟨hleft, hright, h⟩
      exact ⟨_, hleft, _, hright, h⟩

theorem refusal?_eq_none_iff {t : Formula} : t.refusal? = none ↔ ∀ refusal, ¬t.Refuses refusal := by
  rw [Option.eq_none_iff_forall_ne_some]
  simp only [ne_eq, refusal?_eq_some_iff]

/-- An operator refuses only after its operands have been worked out, the left one first. -/
theorem firstRefusal?_operation (op : Operator) (left right : Formula) :
    (operation op left right).firstRefusal? =
      left.firstRefusal?.or (right.firstRefusal?.or (operation op left right).refusal?) := by
  have hlast : [operation op left right].findSome? refusal? =
      (operation op left right).refusal? := by
    rw [List.findSome?_singleton]
  rw [firstRefusal?, postorder, List.findSome?_append, List.findSome?_append, Option.or_assoc,
    hlast]
  rfl

end Formula

/-! ## Operators on values -/

theorem Fixnum.render_eq (i : Fixnum) : i.render = toString i.val := by
  obtain ⟨i, hleast, hbound⟩ := i
  cases i with
  | ofNat n => rfl
  | negSucc n =>
    change String.ofList (['-'] ++ Nat.toDigits 10 (n + 1)) = "-" ++ Nat.repr (n + 1)
    rw [String.ofList_append]
    rfl

namespace Value

variable {v w : Value}

theorem exists_of_toExact?_eq_integer {a : Int} (h : v.toExact? = some (.integer a)) :
    ∃ i, v = .integer i ∧ i.val = a := by
  cases v with
  | integer i =>
    injection h with h
    injection h with h
    exact ⟨i, rfl, h⟩
  | _ => cases h

theorem eq_of_toExact?_eq_bool {t : Bool} (h : v.toExact? = some (.bool t)) : v = .bool t := by
  cases v with
  | bool u =>
    cases h
    rfl
  | _ => cases h

theorem eq_of_toExact? {x : Exact} (hv : v.toExact? = some x) (hw : w.toExact? = some x) :
    v = w := by
  cases x with
  | integer a =>
    obtain ⟨i, rfl, hi⟩ := exists_of_toExact?_eq_integer hv
    obtain ⟨j, rfl, hj⟩ := exists_of_toExact?_eq_integer hw
    rw [Fixnum.ext_val (hi.trans hj.symm)]
  | bool t => rw [eq_of_toExact?_eq_bool hv, eq_of_toExact?_eq_bool hw]

end Value

namespace Operator

variable {op : Operator} {x y : Exact} {v w : Value}

/-- On integers, an operator computes what it does without bounds, and then looks at the range. -/
theorem compute_eq (op : Operator) (a b : Fixnum) :
    op.compute a b =
      match op.toExact? a.val b.val with
      | none => .error .divisionByZero
      | some (.bool t) => .ok (.bool t)
      | some (.integer i) => op.checked a b i := by
  cases op with
  | div =>
    rw [compute, toExact?]
    split
    · rfl
    · rfl
  | _ => rfl

theorem apply_of_refuses {refusal : Refusal} (hv : v.toExact? = some x) (hw : w.toExact? = some y)
    (h : op.Refuses x y refusal) : op.apply v w = .error refusal.fault := by
  cases h with
  | left _ t =>
    rw [Value.eq_of_toExact?_eq_bool hv]
    cases t
    · rfl
    · rfl
  | right _ a t =>
    obtain ⟨i, rfl, -⟩ := Value.exists_of_toExact?_eq_integer hv
    rw [Value.eq_of_toExact?_eq_bool hw]
    cases t
    · rfl
    · rfl
  | divisor a =>
    obtain ⟨i, rfl, -⟩ := Value.exists_of_toExact?_eq_integer hv
    obtain ⟨j, rfl, hj⟩ := Value.exists_of_toExact?_eq_integer hw
    change (compute .div i j).mapError Fault.ofCause = _
    rw [compute, if_pos hj]
    rfl
  | range hi hrange =>
    obtain ⟨i, rfl, rfl⟩ := Value.exists_of_toExact?_eq_integer hv
    obtain ⟨j, rfl, rfl⟩ := Value.exists_of_toExact?_eq_integer hw
    change (op.compute i j).mapError Fault.ofCause = _
    rw [compute_eq, hi]
    change (op.checked i j _).mapError Fault.ofCause = _
    rw [checked, Fixnum.ofInt?_eq_none_iff.mpr hrange]
    change Except.error (Fault.ofCause (.integerOverflow _)) = _
    rw [Fixnum.render_eq, Fixnum.render_eq]
    rfl

/-- An operator gives a value on values that stand for operands which it does not refuse, and this
value stands for the exact result. -/
theorem exists_apply_eq_ok (hv : v.toExact? = some x) (hw : w.toExact? = some y)
    (h : op.refusal? x y = none) :
    ∃ u z, op.apply v w = .ok u ∧ op.result? x y = some z ∧ u.toExact? = some z := by
  cases x with
  | bool t => cases h
  | integer a =>
    cases y with
    | bool t => cases h
    | integer b =>
      obtain ⟨i, rfl, rfl⟩ := Value.exists_of_toExact?_eq_integer hv
      obtain ⟨j, rfl, rfl⟩ := Value.exists_of_toExact?_eq_integer hw
      have happly : op.apply (.integer i) (.integer j) = (op.compute i j).mapError Fault.ofCause :=
        rfl
      rw [happly, compute_eq]
      rw [refusal?] at h
      change ∃ u z, _ ∧ op.toExact? i.val j.val = some z ∧ _
      split at h
      next => cases h
      next t ht =>
        rw [ht]
        exact ⟨.bool t, .bool t, rfl, rfl, rfl⟩
      next k hk =>
        rw [hk]
        split at h
        next hrange =>
          obtain ⟨f, hf⟩ := Option.isSome_iff_exists.mp hrange
          refine ⟨.integer f, .integer k, ?_, rfl, ?_⟩
          · change (op.checked i j k).mapError Fault.ofCause = _
            rw [checked, hf]
            rfl
          · rw [Value.toExact?, Fixnum.ofInt?_eq_some_iff.mp hf]
        next => cases h

end Operator

/-! ## Evaluation -/

namespace Formula

/-- How the evaluation of a formula has to end. -/
inductive Ends (t : Formula) : Except Fault Value → Prop
  /-- No operator refuses, and there is a value that stands for the exact one. -/
  | value {v : Value} {x : Exact} (h : t.firstRefusal? = none) (hx : t.toExact? = some x)
    (hv : v.toExact? = some x) : Ends t (.ok v)
  /-- The first refusal leads to the fault. -/
  | fault {refusal : Refusal} (h : t.firstRefusal? = some refusal) : Ends t (.error refusal.fault)

/-- A formula comes to an end without leaving a trace in the store or among the events. -/
theorem exists_eval_eq (t : Formula) (site : Site) (f : FrameId) (s : Store) {depth : Nat}
    (hdepth : t.height < depth) :
    ∃ result, eval depth site f t.expr s = some ⟨result, s, []⟩ ∧ t.Ends result := by
  induction t generalizing site depth with
  | integer i =>
    obtain ⟨depth, rfl⟩ := Nat.exists_eq_add_one_of_ne_zero (Nat.ne_of_gt hdepth)
    exact ⟨_, rfl, .value rfl rfl rfl⟩
  | operation op left right ihleft ihright =>
    obtain ⟨depth, rfl⟩ := Nat.exists_eq_add_one_of_ne_zero (Nat.ne_zero_of_lt hdepth)
    rw [height] at hdepth
    obtain ⟨result, hleft, hends⟩ := ihleft (0 :: site) (show left.height < depth by omega)
    obtain ⟨result', hright, hends'⟩ := ihright (1 :: site) (show right.height < depth by omega)
    have hfirst := firstRefusal?_operation op left right
    cases hends with
    | fault h =>
      rw [h, Option.some_or] at hfirst
      exact ⟨_, Action.bind_of_error hleft, .fault hfirst⟩
    | @value v x h hx hv =>
      rw [h, Option.none_or] at hfirst
      cases hends' with
      | fault h' =>
        rw [h', Option.some_or] at hfirst
        exact ⟨_, Action.bind_of_ok hleft (Action.bind_of_error hright), .fault hfirst⟩
      | @value w y h' hy hw =>
        have hend : eval (depth + 1) site f (operation op left right).expr s =
            some ⟨op.apply v w, s, []⟩ :=
          Action.bind_of_ok hleft (Action.bind_of_ok hright (Action.ofExcept_apply _ s))
        have hrefusal : (operation op left right).refusal? = op.refusal? x y := by
          rw [refusal?, hx, hy]
          rfl
        rw [h', Option.none_or, hrefusal] at hfirst
        refine ⟨_, hend, ?_⟩
        cases happly : op.refusal? x y with
        | some refusal =>
          rw [Operator.apply_of_refuses hv hw (Operator.refusal?_eq_some_iff.mp happly)]
          exact .fault (hfirst.trans happly)
        | none =>
          obtain ⟨u, z, hu, hz, huz⟩ := Operator.exists_apply_eq_ok hv hw happly
          rw [hu]
          refine .value (hfirst.trans happly) ?_ huz
          rw [toExact?, hx, hy]
          exact hz

theorem firstRefusal?_eq_none_iff {t : Formula} :
    t.firstRefusal? = none ↔ ∀ n ∈ t.postorder, ∀ refusal, ¬n.Refuses refusal := by
  rw [firstRefusal?, List.findSome?_eq_none_iff]
  simp only [refusal?_eq_none_iff]

theorem firstRefusal?_eq_some_iff {t : Formula} {refusal : Refusal} :
    t.firstRefusal? = some refusal ↔ ∃ before n after, t.postorder = before ++ n :: after ∧
      n.Refuses refusal ∧ ∀ m ∈ before, ∀ refusal', ¬m.Refuses refusal' := by
  rw [firstRefusal?, List.findSome?_eq_some_iff]
  simp only [refusal?_eq_some_iff, refusal?_eq_none_iff]

end Formula

/-- **Arithmetic is exact.** A formula comes to an end, and neither the store nor the events show
it. It ends in a value if no operator in it refuses its operands, and the value stands for the exact
one. Otherwise it ends in the fault of the first operator in post-order that refuses. -/
theorem eval_formula (t : Formula) (site : Site) (f : FrameId) (s : Store) {depth : Nat}
    (hdepth : t.height < depth) :
    ∃ result, eval depth site f t.expr s = some ⟨result, s, []⟩ ∧
      (∀ v, result = .ok v ↔ (∀ n ∈ t.postorder, ∀ refusal, ¬n.Refuses refusal) ∧
        ∃ x, t.toExact? = some x ∧ v.toExact? = some x) ∧
      ∀ fault, result = .error fault ↔ ∃ before n after refusal,
        t.postorder = before ++ n :: after ∧ (∀ m ∈ before, ∀ refusal', ¬m.Refuses refusal') ∧
          n.Refuses refusal ∧ fault = refusal.fault := by
  obtain ⟨result, heval, hends⟩ := t.exists_eval_eq site f s hdepth
  refine ⟨result, heval, fun v ↦ ?_, fun fault ↦ ?_⟩
  · rw [← Formula.firstRefusal?_eq_none_iff]
    constructor
    · rintro rfl
      obtain ⟨h, hx, hv⟩ := hends
      exact ⟨h, _, hx, hv⟩
    · rintro ⟨h, x, hx, hv⟩
      cases hends with
      | value h' hx' hv' =>
        rw [Option.some.inj (hx'.symm.trans hx)] at hv'
        rw [Value.eq_of_toExact? hv' hv]
      | fault h' => cases h'.symm.trans h
  · constructor
    · rintro rfl
      cases hends with
      | @fault refusal h =>
        obtain ⟨before, n, after, hsplit, hn, hbefore⟩ := Formula.firstRefusal?_eq_some_iff.mp h
        exact ⟨before, n, after, refusal, hsplit, hbefore, hn, rfl⟩
    · rintro ⟨before, n, after, refusal, hsplit, hbefore, hn, rfl⟩
      have h : t.firstRefusal? = some refusal :=
        Formula.firstRefusal?_eq_some_iff.mpr ⟨before, n, after, hsplit, hn, hbefore⟩
      cases hends with
      | value h' => cases h'.symm.trans h
      | fault h' => rw [Option.some.inj (h'.symm.trans h)]

/-- The least integer divided by minus one is out of range. That is found out before the division by
zero to its right, and instead of a wrapped number. -/
theorem eval_formula_least_by_minus_one :
    let s := (Store.empty.newFrame none).2
    let number (i : Int) (h : -9223372036854775808 ≤ i ∧ i < 9223372036854775808) : Formula :=
      .integer { val := i, least_le := h.1, lt_bound := h.2 }
    let quotient : Formula :=
      .operation .div (number (-9223372036854775808) (by decide)) (number (-1) (by decide))
    let t : Formula := .operation .less quotient
      (.operation .div (number 7 (by decide)) (number 0 (by decide)))
    t.height < 3 ∧ eval 3 [0] 0 t.expr s =
      some ⟨.error ⟨.integerOverflow "(/ -9223372036854775808 -1)", []⟩, s, []⟩ := by
  intro s number quotient t
  have hdepth : t.height < 3 := by decide
  obtain ⟨result, heval, -, hfault⟩ := eval_formula t [0] 0 s hdepth
  refine ⟨hdepth, ?_⟩
  have hquotient : quotient.Refuses (.range .div (-9223372036854775808) (-1)) :=
    .operation rfl rfl (.range rfl (by decide))
  have hresult : result = .error (Refusal.range .div (-9223372036854775808) (-1)).fault := by
    -- in front of the quotient there are its two operands
    refine (hfault _).mpr ⟨[number (-9223372036854775808) (by decide), number (-1) (by decide)],
      quotient, _, _, rfl, ?_, hquotient, rfl⟩
    intro m hm refusal hrefuses
    cases hrefuses with
    | operation => simp [number] at hm
  rw [heval, hresult]
  rfl

end LexicalLisp
