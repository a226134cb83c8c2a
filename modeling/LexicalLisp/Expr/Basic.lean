import LexicalLisp.Datum.Printer
import LexicalLisp.Operator

/-!
# Expressions

An expression is a datum whose forms have been recognised: every list has become a definition, a
conditional, an operation, a lambda or a call, and what evaluates to itself is a literal. An
expression says nothing about where it came from; it is compared by structure alone.

Each expression has exactly one datum that spells it (`Expr.toDatum`), and the text of an
expression is the text of that datum.
-/

namespace LexicalLisp

/-- A recognised form. -/
inductive Expr where
  /-- A datum that stands for itself: an integer, a truth value or a quoted datum. -/
  | literal (datum : Datum)
  /-- A reference to a binding. -/
  | symbol (name : String)
  /-- Binds a name to the value of an expression. -/
  | definition (name : String) (value : Expr)
  /-- Evaluates one of two branches. -/
  | conditional (test yes no : Expr)
  /-- Applies an operator to two operands. -/
  | binary (op : Operator) (left right : Expr)
  /-- Makes a closure. -/
  | lambda (params : List String) (body : Expr)
  /-- Calls a closure. -/
  | call (callee : Expr) (args : List Expr)
deriving Inhabited

namespace Expr

/-- Induction over expressions: a call has the property as soon as its callee and all its arguments
have it. -/
@[elab_as_elim, induction_eliminator]
theorem induction {motive : Expr → Prop}
    (literal : ∀ datum, motive (.literal datum))
    (symbol : ∀ name, motive (.symbol name))
    (definition : ∀ name value, motive value → motive (.definition name value))
    (conditional : ∀ test yes no, motive test → motive yes → motive no →
      motive (.conditional test yes no))
    (binary : ∀ op left right, motive left → motive right → motive (.binary op left right))
    (lambda : ∀ params body, motive body → motive (.lambda params body))
    (call : ∀ callee args, motive callee → (∀ a ∈ args, motive a) → motive (.call callee args))
    (e : Expr) : motive e :=
  Expr.rec (motive_2 := fun args ↦ ∀ a ∈ args, motive a)
    literal symbol definition conditional binary lambda call
    (by simp)
    (fun _ _ hd hs e he ↦ by
      rcases List.mem_cons.1 he with rfl | he
      · exact hd
      · exact hs e he)
    e

/-! ## Equality -/

mutual

/-- Structural comparison of two expressions. -/
def beq : Expr → Expr → Bool
  | .literal a, .literal b => a == b
  | .symbol a, .symbol b => a == b
  | .definition m a, .definition n b => m == n && beq a b
  | .conditional a₁ a₂ a₃, .conditional b₁ b₂ b₃ => beq a₁ b₁ && beq a₂ b₂ && beq a₃ b₃
  | .binary o a₁ a₂, .binary p b₁ b₂ => o == p && beq a₁ b₁ && beq a₂ b₂
  | .lambda m a, .lambda n b => m == n && beq a b
  | .call a as, .call b bs => beq a b && beqAll as bs
  | _, _ => false

/-- Structural comparison of two lists of expressions. -/
def beqAll : List Expr → List Expr → Bool
  | [], [] => true
  | a :: as, b :: bs => beq a b && beqAll as bs
  | _, _ => false

end

private theorem beqAll_iff_eq_of_mem (as : List Expr)
    (h : ∀ a ∈ as, ∀ b, beq a b = true ↔ a = b) (bs : List Expr) :
    beqAll as bs = true ↔ as = bs := by
  induction as generalizing bs with
  | nil => cases bs <;> simp [beqAll]
  | cons a as ih =>
    cases bs with
    | nil => simp [beqAll]
    | cons b bs =>
      simp [beqAll, h a (by simp) b, ih (fun c hc ↦ h c (by simp [hc])) bs]

theorem beq_iff_eq (a b : Expr) : beq a b = true ↔ a = b := by
  induction a generalizing b with
  | literal a => cases b <;> simp [beq]
  | symbol a => cases b <;> simp [beq]
  | definition m a ih => cases b <;> simp [beq, ih]
  | conditional a₁ a₂ a₃ ih₁ ih₂ ih₃ => cases b <;> simp [beq, ih₁, ih₂, ih₃, and_assoc]
  | binary o a₁ a₂ ih₁ ih₂ => cases b <;> simp [beq, ih₁, ih₂, and_assoc]
  | lambda m a ih => cases b <;> simp [beq, ih]
  | call a as ih ihs => cases b <;> simp [beq, ih, beqAll_iff_eq_of_mem as ihs]

instance : DecidableEq Expr := fun a b ↦ decidable_of_iff (beq a b = true) (beq_iff_eq a b)

/-! ## Spelling -/

mutual

/-- The datum that spells an expression. -/
def toDatum : Expr → Datum
  | .literal datum => datum
  | .symbol name => .symbol name
  | .definition name value =>
    .list [.symbol Keyword.define.word, .symbol name, toDatum value]
  | .conditional test yes no =>
    .list [.symbol Keyword.conditional.word, toDatum test, toDatum yes, toDatum no]
  | .binary op left right => .list [.symbol op.symbol, toDatum left, toDatum right]
  | .lambda params body =>
    .list [.symbol Keyword.lambda.word, .list (params.map .symbol), toDatum body]
  | .call callee args => .list (toDatum callee :: toData args)

/-- The data that spell a list of expressions. -/
def toData : List Expr → List Datum
  | [] => []
  | e :: rest => toDatum e :: toData rest

end

theorem toData_eq_map (es : List Expr) : toData es = es.map toDatum := by
  induction es with
  | nil => rfl
  | cons e es ih => rw [toData, List.map_cons, ih]

/-- The one-line text of an expression. -/
def render (e : Expr) : String := e.toDatum.render

/-! ## Text

The text of an expression is put together from the texts of its parts. -/

theorem render_literal (datum : Datum) : (literal datum).render = datum.render := rfl

theorem render_symbol (name : String) : (symbol name).render = name := Datum.render_symbol name

theorem render_definition (name : String) (value : Expr) : (definition name value).render =
    "(" ++ Keyword.define.word ++ " " ++ name ++ " " ++ value.render ++ ")" := by
  rw [render, toDatum, Datum.render_list]
  simp [String.append_assoc, Datum.render_symbol, render]

theorem render_conditional (test yes no : Expr) : (conditional test yes no).render =
    "(" ++ Keyword.conditional.word ++ " " ++ test.render ++ " " ++ yes.render ++ " " ++
      no.render ++ ")" := by
  rw [render, toDatum, Datum.render_list]
  simp [String.append_assoc, Datum.render_symbol, render]

theorem render_binary (op : Operator) (left right : Expr) : (binary op left right).render =
    "(" ++ op.symbol ++ " " ++ left.render ++ " " ++ right.render ++ ")" := by
  rw [render, toDatum, Datum.render_list]
  simp [String.append_assoc, Datum.render_symbol, render]

theorem render_lambda (params : List String) (body : Expr) : (lambda params body).render =
    "(" ++ Keyword.lambda.word ++ " " ++ ("(" ++ " ".intercalate params ++ ")") ++ " " ++
      body.render ++ ")" := by
  have hparams : (Datum.list (params.map .symbol)).render =
      "(" ++ " ".intercalate params ++ ")" := by
    rw [Datum.render_list, List.map_map, show Datum.render ∘ .symbol = id from
      funext Datum.render_symbol, List.map_id]
  rw [render, toDatum, Datum.render_list]
  simp [String.append_assoc, Datum.render_symbol, render, hparams]

theorem render_call_nil (callee : Expr) :
    (call callee []).render = "(" ++ callee.render ++ ")" := by
  rw [render, toDatum, toData, Datum.render_list, List.map_singleton,
    String.intercalate_singleton, render]

theorem render_call {args : List Expr} (h : args ≠ []) (callee : Expr) :
    (call callee args).render =
      "(" ++ callee.render ++ " " ++ " ".intercalate (args.map render) ++ ")" := by
  have hargs : (args.map toDatum).map Datum.render = args.map render := List.map_map
  rw [render, toDatum, toData_eq_map, Datum.render_list, List.map_cons, hargs,
    String.intercalate_cons_of_ne_nil (mt List.map_eq_nil_iff.mp h), ← String.append_assoc,
    ← String.append_assoc, render]

end Expr

end LexicalLisp
