import Mathlib.Data.UInt
import Mathlib.Data.String.Basic

/-!
# The order of bytes

Texts are compared by the numbers of their characters, one after another. Their UTF-8 forms are
compared byte by byte, and that is the same order (`Text.bytes_lt_bytes_iff`): of two different
characters, the one with the smaller number has the smaller form, and neither form begins with the
other, so what follows does not matter (`Text.utf8EncodeChar_append_lt`).
-/

namespace LexicalLisp

namespace Text

/-- The UTF-8 form of a text. -/
def bytes (text : String) : List UInt8 := text.toUTF8.data.toList

theorem bytes_eq_flatMap (text : String) :
    bytes text = text.toList.flatMap String.utf8EncodeChar := by
  have htext : text.toByteArray = text.toList.utf8Encode := by
    rw [← String.toByteArray_ofList, String.ofList_toList]
  rw [bytes, String.toUTF8, htext, List.utf8Encode, List.data_toByteArray]

variable {a b : Nat}

private theorem ofNat_lt_ofNat_iff (ha : a < 256) (hb : b < 256) :
    UInt8.ofNat a < UInt8.ofNat b ↔ a < b := by
  rw [UInt8.lt_iff_toNat_lt, UInt8.toNat_ofNat_of_lt' ha, UInt8.toNat_ofNat_of_lt' hb]

private theorem ofNat_eq_ofNat_iff (ha : a < 256) (hb : b < 256) :
    UInt8.ofNat a = UInt8.ofNat b ↔ a = b := by
  rw [← UInt8.toNat_inj, UInt8.toNat_ofNat_of_lt' ha, UInt8.toNat_ofNat_of_lt' hb]

/-- A number is smaller if it is so in the first of its digits to the base 64 that differs. -/
private theorem digits_lt (h : a < b) :
    a / 262144 < b / 262144 ∨ a / 262144 = b / 262144 ∧
      (a / 4096 % 64 < b / 4096 % 64 ∨ a / 4096 % 64 = b / 4096 % 64 ∧
        (a / 64 % 64 < b / 64 % 64 ∨ a / 64 % 64 = b / 64 % 64 ∧ a % 64 < b % 64)) := by
  have hone : a / 64 < b / 64 ∨ a / 64 = b / 64 ∧ a % 64 < b % 64 := by omega
  rcases hone with hone | ⟨hone, hlast⟩
  · have htwo : a / 4096 < b / 4096 ∨ a / 4096 = b / 4096 ∧ a / 64 % 64 < b / 64 % 64 := by omega
    rcases htwo with htwo | ⟨htwo, hlast⟩ <;> omega
  · omega

/-- Different characters have different forms at once, in the order of their numbers. -/
theorem utf8EncodeChar_append_lt {c d : Char} (h : c < d) (rest rest' : List UInt8) :
    String.utf8EncodeChar c ++ rest < String.utf8EncodeChar d ++ rest' := by
  have hcd : c.val.toNat < d.val.toNat := h
  have hd : d.val.toNat < 1114112 := by
    rcases d.valid with hd | ⟨-, hd⟩
    · exact Nat.lt_trans hd (by decide)
    · exact hd
  -- of the first digit there are only the last three bits in a form
  have hcfirst : c.val.toNat / 262144 % 8 = c.val.toNat / 262144 := by omega
  have hdfirst : d.val.toNat / 262144 % 8 = d.val.toNat / 262144 := by omega
  rw [String.utf8EncodeChar.eq_1, String.utf8EncodeChar.eq_1]
  -- one case for each number of bytes, of the first character and of the second
  split_ifs
  all_goals
    simp (disch := omega) only [List.cons_append, List.cons_lt_cons_iff, ofNat_lt_ofNat_iff,
      ofNat_eq_ofNat_iff]
    have hdigits := digits_lt hcd
    omega

theorem append_lt_append {l l' : List UInt8} (h : l < l') (front : List UInt8) :
    front ++ l < front ++ l' := by
  induction front with
  | nil => exact h
  | cons b front ih => exact List.cons_lt_cons_iff.mpr (.inr ⟨rfl, ih⟩)

theorem flatMap_lt_flatMap {l l' : List Char} (h : l < l') :
    l.flatMap String.utf8EncodeChar < l'.flatMap String.utf8EncodeChar := by
  induction l generalizing l' with
  | nil =>
    cases l' with
    | nil => exact absurd h (List.not_lt_nil _)
    | cons d l' =>
      rw [List.flatMap_nil, List.flatMap_cons]
      obtain ⟨b, bs, hd⟩ := List.exists_cons_of_ne_nil (String.utf8EncodeChar_ne_nil (c := d))
      rw [hd]
      exact List.nil_lt_cons b _
  | cons c l ih =>
    cases l' with
    | nil => exact absurd h (List.not_lt_nil _)
    | cons d l' =>
      rw [List.flatMap_cons, List.flatMap_cons]
      rcases List.cons_lt_cons_iff.mp h with hcd | ⟨rfl, hrest⟩
      · exact utf8EncodeChar_append_lt hcd _ _
      · exact append_lt_append (ih hrest) _

/-- **The order of texts is the order of their bytes.** -/
theorem bytes_lt_bytes_iff {text text' : String} : bytes text < bytes text' ↔ text < text' := by
  have hbytes : ∀ {t t' : String}, t < t' → bytes t < bytes t' := by
    intro t t' h
    rw [bytes_eq_flatMap, bytes_eq_flatMap]
    exact flatMap_lt_flatMap h
  refine ⟨fun h ↦ ?_, hbytes⟩
  rcases lt_trichotomy text text' with hlt | rfl | hgt
  · exact hlt
  · exact absurd h (List.lt_irrefl _)
  · exact absurd (hbytes hgt) (List.lt_asymm h)

end Text

end LexicalLisp
