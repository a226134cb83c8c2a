import LexicalLisp.Fixnum

/-!
# Data

A datum is what a program text denotes before anything is known about its meaning: an integer, a
truth value, a name, a quoted datum, or a list of data. Programs and quoted data share this one
type.

Lists hold data, so recursion over data goes through two functions, one for a datum and one for a
list of them. `Datum.induction` is the corresponding principle for proofs, with the list case
assuming the property of every item. Equality of data is decided here as well, since nothing
derives it for a type that nests itself under `List`.
-/

namespace LexicalLisp

/-- An untyped symbolic expression. -/
inductive Datum where
  /-- A parenthesised sequence. -/
  | list (items : List Datum)
  /-- A name. -/
  | symbol (name : String)
  /-- An integer. -/
  | integer (value : Fixnum)
  /-- A truth value. -/
  | bool (value : Bool)
  /-- A datum behind a quote mark. -/
  | quote (inner : Datum)
deriving Inhabited

namespace Datum

/-- Induction over data: a list has the property as soon as all its items have it. -/
@[elab_as_elim, induction_eliminator]
theorem induction {motive : Datum → Prop}
    (list : ∀ items, (∀ d ∈ items, motive d) → motive (.list items))
    (symbol : ∀ name, motive (.symbol name))
    (integer : ∀ value, motive (.integer value))
    (bool : ∀ value, motive (.bool value))
    (quote : ∀ inner, motive inner → motive (.quote inner)) (d : Datum) : motive d :=
  Datum.rec (motive_2 := fun items ↦ ∀ d ∈ items, motive d)
    list symbol integer bool quote
    (by simp)
    (fun _ _ hd hs e he ↦ by
      rcases List.mem_cons.1 he with rfl | he
      · exact hd
      · exact hs e he)
    d

/-! ## Equality -/

mutual

/-- Structural comparison of two data. -/
def beq : Datum → Datum → Bool
  | .list as, .list bs => beqAll as bs
  | .symbol a, .symbol b => a == b
  | .integer a, .integer b => a == b
  | .bool a, .bool b => a == b
  | .quote a, .quote b => beq a b
  | _, _ => false

/-- Structural comparison of two lists of data. -/
def beqAll : List Datum → List Datum → Bool
  | [], [] => true
  | a :: as, b :: bs => beq a b && beqAll as bs
  | _, _ => false

end

private theorem beqAll_iff_eq_of_forall (as : List Datum)
    (h : ∀ a ∈ as, ∀ b, beq a b = true ↔ a = b) (bs : List Datum) :
    beqAll as bs = true ↔ as = bs := by
  induction as generalizing bs with
  | nil => cases bs <;> simp [beqAll]
  | cons a as ih =>
    cases bs with
    | nil => simp [beqAll]
    | cons b bs =>
      simp [beqAll, h a (by simp) b, ih (fun c hc ↦ h c (by simp [hc])) bs]

theorem beq_iff_eq (a b : Datum) : beq a b = true ↔ a = b := by
  induction a generalizing b with
  | list as ih => cases b <;> simp [beq, beqAll_iff_eq_of_forall as ih]
  | symbol a => cases b <;> simp [beq]
  | integer a => cases b <;> simp [beq]
  | bool a => cases b <;> simp [beq]
  | quote a ih => cases b <;> simp [beq, ih]

instance : DecidableEq Datum := fun a b ↦ decidable_of_iff (beq a b = true) (beq_iff_eq a b)

end Datum

end LexicalLisp
