/-!
# Integers of the language

The language computes with signed 64-bit integers and never wraps: a result outside the range is
a fault, not a number. A `Fixnum` is therefore an integer together with the two bounds, and the
only way in is `Fixnum.ofInt?`, which refuses what does not fit. All arithmetic is done on `Int`
and brought back through that one door.

The decimal text is fixed here too, as a list of characters: digits without leading zeros, after a
minus sign if the integer is negative.
-/

namespace LexicalLisp

/-- An integer between `-2 ^ 63` and `2 ^ 63 - 1`, with the powers written out. -/
structure Fixnum where
  /-- The integer itself. -/
  val : Int
  /-- It is not below the least signed 64-bit integer. -/
  least_le : -9223372036854775808 ≤ val := by omega
  /-- It is not above the greatest one. -/
  lt_bound : val < 9223372036854775808 := by omega
deriving DecidableEq

namespace Fixnum

/-- The fixnum of an integer, if it is in range. -/
def ofInt? (i : Int) : Option Fixnum :=
  if h : -9223372036854775808 ≤ i ∧ i < 9223372036854775808 then some ⟨i, h.1, h.2⟩ else none

/-- The integer zero, which counts as false. -/
def zero : Fixnum where
  val := 0

/-- Decimal digits, after a minus sign for a negative integer. -/
def chars (i : Fixnum) : List Char :=
  match i.val with
  | .ofNat n => Nat.toDigits 10 n
  | .negSucc n => '-' :: Nat.toDigits 10 (n + 1)

/-- The decimal text of an integer. -/
def render (i : Fixnum) : String := String.ofList i.chars

theorem ext_val {i j : Fixnum} (h : i.val = j.val) : i = j := by
  cases i; cases j; simp_all

@[simp] theorem ofInt?_val (i : Fixnum) : ofInt? i.val = some i :=
  dif_pos ⟨i.least_le, i.lt_bound⟩

theorem ofInt?_eq_some_iff {i : Int} {f : Fixnum} : ofInt? i = some f ↔ f.val = i := by
  constructor
  · intro h
    unfold ofInt? at h
    split at h
    · cases h; rfl
    · cases h
  · rintro rfl
    exact ofInt?_val f

theorem ofInt?_eq_none_iff {i : Int} :
    ofInt? i = none ↔ i < -9223372036854775808 ∨ 9223372036854775808 ≤ i := by
  unfold ofInt?
  split
  · simp; omega
  · simp; omega

end Fixnum

end LexicalLisp
