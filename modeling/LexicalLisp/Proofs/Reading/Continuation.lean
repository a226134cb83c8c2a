import LexicalLisp.Datum.Cursor
import LexicalLisp.Proofs.Reading.Lexeme

/-!
# Reading on in a text that goes on

What becomes of the data of a text when more text is written behind it, the more beginning with a
line feed. The reader's state is the list of what is open, so there are three cases and no others:

* a datum that was read is read again (`readWithin_append_newline`);
* a reading that ran out of text goes on with the new text from what was open then
  (`readWithin_append_newline_of_isIncomplete`);
* any other error stays (`readWithin_append_newline_error`), and some error of its kind stays
  whatever follows, a line feed or not (`readWithin_append_error`).

The same three cases hold of all data of a text together (`readAll_append_newline`, …). What is
left behind a datum is compared up to the layout in front of it, since a `#` before the line feed
takes the line feed with it.
-/

namespace LexicalLisp

/-- Reads on in a text from what is known at its beginning. -/
def Progress.resume : Progress → List Char → Except ReadError (Datum × List Char)
  | complete d, text => .ok (d, text)
  | pending openings, text => Datum.readWithin openings text

theorem Opening.isIncomplete_atEnd (openings : List Opening) :
    (atEnd openings).isIncomplete = true := by
  induction openings with
  | nil => rfl
  | cons opening outer ih =>
    cases opening with
    | list items => rfl
    | quote => exact ih

/-- Only a closing parenthesis can be out of place among the lexemes. -/
theorem Opening.advance_eq_error {openings : List Opening} {l : Lexeme} {e : ReadError}
    (h : advance openings l = .error e) : l = .closeList ∧ e = .unexpectedChar ')' := by
  cases l with
  | openList | quote | atom d => simp [advance] at h
  | closeList =>
    refine ⟨rfl, ?_⟩
    rcases openings with _ | ⟨_ | _, outer⟩ <;> cases h <;> rfl

namespace Datum

open Lexeme (next)

/-! ## One datum -/

section Equations

variable {openings : List Opening} {text rest : List Char} {l : Lexeme} {e : ReadError}

theorem readWithin_of_next_error (h : next text = .error e) :
    readWithin openings text = .error e := by
  rw [readWithin]
  split
  next h' =>
    cases h'.symm.trans h
    rfl
  next h' => cases h'.symm.trans h
  next h' => cases h'.symm.trans h

theorem readWithin_of_next_none (h : next text = .ok none) :
    readWithin openings text = .error (Opening.atEnd openings) := by
  rw [readWithin]
  split
  next h' => cases h'.symm.trans h
  next => rfl
  next h' => cases h'.symm.trans h

theorem readWithin_of_advance_error (h : next text = .ok (some (l, rest)))
    (ha : Opening.advance openings l = .error e) : readWithin openings text = .error e := by
  rw [readWithin]
  split
  next h' => cases h'.symm.trans h
  next h' => cases h'.symm.trans h
  next h' =>
    cases h'.symm.trans h
    rw [ha]

theorem readWithin_of_advance {p : Progress} (h : next text = .ok (some (l, rest)))
    (ha : Opening.advance openings l = .ok p) : readWithin openings text = p.resume rest := by
  rw [readWithin]
  split
  next h' => cases h'.symm.trans h
  next h' => cases h'.symm.trans h
  next h' =>
    cases h'.symm.trans h
    rw [ha]
    cases p <;> rfl

end Equations

theorem readWithin_congr {text text' : List Char} (h : skipLayout text = skipLayout text')
    (openings : List Opening) : readWithin openings text = readWithin openings text' := by
  have hnext := Lexeme.next_congr h
  cases hn : next text' with
  | error e =>
    rw [readWithin_of_next_error hn, readWithin_of_next_error (hnext.trans hn)]
  | ok found =>
    cases found with
    | none => rw [readWithin_of_next_none hn, readWithin_of_next_none (hnext.trans hn)]
    | some found =>
      obtain ⟨l, rest⟩ := found
      cases ha : Opening.advance openings l with
      | error e =>
        rw [readWithin_of_advance_error hn ha, readWithin_of_advance_error (hnext.trans hn) ha]
      | ok p => rw [readWithin_of_advance hn ha, readWithin_of_advance (hnext.trans hn) ha]

theorem readWithin_append_newline {openings : List Opening} {text rest : List Char} {d : Datum}
    (h : readWithin openings text = .ok (d, rest)) (more : List Char) :
    ∃ rest', readWithin openings (text ++ '\n' :: more) = .ok (d, rest') ∧
      skipLayout rest' = skipLayout (rest ++ '\n' :: more) := by
  fun_induction readWithin openings text with
  | case1 => cases h
  | case2 => cases h
  | case3 => cases h
  | case4 openings text l left hn d' ha =>
    cases h
    obtain ⟨left', hn', hleft⟩ := Lexeme.next_append_newline hn more
    exact ⟨left', readWithin_of_advance hn' ha, hleft⟩
  | case5 openings text l left hn openings' ha ih =>
    obtain ⟨left', hn', hleft⟩ := Lexeme.next_append_newline hn more
    obtain ⟨rest', hread, hrest⟩ := ih h
    refine ⟨rest', ?_, hrest⟩
    rw [readWithin_of_advance hn' ha, Progress.resume, readWithin_congr hleft, hread]

/-- A reading that ran out of text has got somewhere: it goes on from there. -/
theorem readWithin_append_newline_of_isIncomplete {openings : List Opening} {text : List Char}
    {e : ReadError} (h : readWithin openings text = .error e) (he : e.isIncomplete = true) :
    ∃ openings', e = Opening.atEnd openings' ∧
      ∀ more, readWithin openings (text ++ '\n' :: more) = readWithin openings' more := by
  fun_induction readWithin openings text with
  | case1 openings text e' hn =>
    cases h
    rw [Lexeme.isIncomplete_of_next_error hn] at he
    cases he
  | case2 openings text hn =>
    -- here the text ran out, and what is open here is what the rest is read in
    cases h
    refine ⟨openings, rfl, fun more ↦ readWithin_congr ?_ openings⟩
    exact skipLayout_append_newline more (Lexeme.next_eq_none_iff.mp hn)
  | case3 openings text l left hn e' ha =>
    cases h
    rw [(Opening.advance_eq_error ha).2] at he
    cases he
  | case4 => cases h
  | case5 openings text l left hn openings' ha ih =>
    obtain ⟨openings'', hend, hread⟩ := ih h
    refine ⟨openings'', hend, fun more ↦ ?_⟩
    obtain ⟨left', hn', hleft⟩ := Lexeme.next_append_newline hn more
    rw [readWithin_of_advance hn' ha, Progress.resume, readWithin_congr hleft, hread]

theorem readWithin_append_newline_error {openings : List Opening} {text : List Char}
    {e : ReadError} (h : readWithin openings text = .error e) (he : e.isIncomplete = false)
    (more : List Char) : readWithin openings (text ++ '\n' :: more) = .error e := by
  fun_induction readWithin openings text with
  | case1 openings text e' hn =>
    cases h
    exact readWithin_of_next_error (Lexeme.next_append_newline_error hn more)
  | case2 openings text hn =>
    cases h
    rw [Opening.isIncomplete_atEnd] at he
    cases he
  | case3 openings text l left hn e' ha =>
    cases h
    obtain ⟨left', hn', -⟩ := Lexeme.next_append_newline hn more
    exact readWithin_of_advance_error hn' ha
  | case4 => cases h
  | case5 openings text l left hn openings' ha ih =>
    obtain ⟨left', hn', hleft⟩ := Lexeme.next_append_newline hn more
    rw [readWithin_of_advance hn' ha, Progress.resume, readWithin_congr hleft, ih h]

theorem isIncomplete_of_readWithin_nil {openings : List Opening} {e : ReadError}
    (h : readWithin openings [] = .error e) : e.isIncomplete = true := by
  rw [readWithin_of_next_none rfl] at h
  cases h
  exact Opening.isIncomplete_atEnd openings

/-- The lexemes in front of the error are not at the end of the text, so that none of them can
grow. -/
theorem readWithin_append_error {openings : List Opening} {text : List Char} {e : ReadError}
    (h : readWithin openings text = .error e) (he : e.isIncomplete = false) (more : List Char) :
    ∃ e', readWithin openings (text ++ more) = .error e' ∧ e.SameKind e' := by
  fun_induction readWithin openings text with
  | case1 openings text e' hn =>
    cases h
    obtain ⟨e'', hn', hkind⟩ := Lexeme.next_append_error hn more
    exact ⟨e'', readWithin_of_next_error hn', hkind⟩
  | case2 openings text hn =>
    cases h
    rw [Opening.isIncomplete_atEnd] at he
    cases he
  | case3 openings text l left hn e' ha =>
    cases h
    obtain ⟨rfl, rfl⟩ := Opening.advance_eq_error ha
    have hn' := Lexeme.next_append_of_ne_nil hn (.inr rfl) more
    exact ⟨_, readWithin_of_advance_error hn' ha, rfl⟩
  | case4 => cases h
  | case5 openings text l left hn openings' ha ih =>
    -- with nothing left, the error would be that of a text that stops too early
    have hleft : left ≠ [] := by
      rintro rfl
      rw [isIncomplete_of_readWithin_nil h] at he
      cases he
    obtain ⟨e', hread, hkind⟩ := ih h
    refine ⟨e', ?_, hkind⟩
    rw [readWithin_of_advance (Lexeme.next_append_of_ne_nil hn (.inl hleft) more) ha,
      Progress.resume, hread]

theorem readWithin_append_of_ne_nil {openings : List Opening} {text rest : List Char}
    {d : Datum} (h : readWithin openings text = .ok (d, rest)) (hrest : rest ≠ [])
    (more : List Char) : readWithin openings (text ++ more) = .ok (d, rest ++ more) := by
  fun_induction readWithin openings text with
  | case1 => cases h
  | case2 => cases h
  | case3 => cases h
  | case4 openings text l left hn d' ha =>
    cases h
    exact readWithin_of_advance (Lexeme.next_append_of_ne_nil hn (.inl hrest) more) ha
  | case5 openings text l left hn openings' ha ih =>
    have hleft : left ≠ [] := by
      rintro rfl
      have hlen := length_lt_of_readWithin h
      exact absurd hlen (Nat.not_lt_zero _)
    rw [readWithin_of_advance (Lexeme.next_append_of_ne_nil hn (.inl hleft) more) ha,
      Progress.resume, ih h]

/-! ## All data -/

theorem skipLayout_ne_nil_of_read {text rest : List Char} {d : Datum}
    (h : read text = .ok (d, rest)) : skipLayout text ≠ [] := by
  intro hskip
  rw [read, readWithin_of_next_none (Lexeme.next_eq_none_iff.mpr hskip)] at h
  cases h

theorem items_of_layout {text : List Char} (h : skipLayout text = []) : items text = [] := by
  rw [items, h]

theorem items_of_read {text rest : List Char} {d : Datum} (h : read text = .ok (d, rest)) :
    items text = .ok d :: items rest := by
  rw [items]
  split
  next hskip => exact absurd hskip (skipLayout_ne_nil_of_read h)
  next =>
    split
    next h' => cases h'.symm.trans h
    next h' =>
      cases h'.symm.trans h
      rfl

theorem items_of_read_error {text : List Char} {e : ReadError} (hskip : skipLayout text ≠ [])
    (h : read text = .error e) : items text = [.error e] := by
  rw [items]
  split
  next hskip' => exact absurd hskip' hskip
  next =>
    split
    next h' =>
      cases h'.symm.trans h
      rfl
    next h' => cases h'.symm.trans h

/-- Induction along the data of a text: only layout is left, or an error ends them, or a datum is
read and the rest has the property. -/
@[elab_as_elim]
theorem reading_induction {motive : List Char → Prop}
    (layout : ∀ text, skipLayout text = [] → motive text)
    (error : ∀ text e, skipLayout text ≠ [] → read text = .error e → motive text)
    (datum : ∀ text d rest, read text = .ok (d, rest) → motive rest → motive text)
    (text : List Char) : motive text := by
  induction hn : text.length using Nat.strongRecOn generalizing text with
  | _ n ih =>
    by_cases hskip : skipLayout text = []
    · exact layout text hskip
    cases h : read text with
    | error e => exact error text e hskip h
    | ok found =>
      obtain ⟨d, rest⟩ := found
      exact datum text d rest h (ih rest.length (hn ▸ length_lt_of_read h) rest rfl)

theorem items_congr {text text' : List Char} (h : skipLayout text = skipLayout text') :
    items text = items text' := by
  have hread : read text = read text' := readWithin_congr h []
  by_cases hskip : skipLayout text' = []
  · rw [items_of_layout (h.trans hskip), items_of_layout hskip]
  cases hr : read text' with
  | error e =>
    rw [items_of_read_error hskip hr, items_of_read_error (h ▸ hskip) (hread.trans hr)]
  | ok found => rw [items_of_read hr, items_of_read (hread.trans hr)]

theorem readAll_congr {text text' : List Char} (h : skipLayout text = skipLayout text') :
    readAll text = readAll text' := by
  rw [readAll, readAll, items_congr h]

theorem readAll_of_layout {text : List Char} (h : skipLayout text = []) :
    readAll text = .ok [] := by
  rw [readAll, items_of_layout h]
  rfl

theorem readAll_of_read {text rest : List Char} {d : Datum} (h : read text = .ok (d, rest)) :
    readAll text = (readAll rest).map (d :: ·) := by
  rw [readAll, items_of_read h, List.mapM_cons, readAll]
  cases (items rest).mapM id <;> rfl

theorem readAll_rest_ok {text rest : List Char} {d : Datum} {ds : List Datum}
    (hread : read text = .ok (d, rest)) (h : readAll text = .ok ds) :
    ∃ ds', readAll rest = .ok ds' ∧ ds = d :: ds' := by
  rw [readAll_of_read hread] at h
  cases hrest : readAll rest <;> rw [hrest] at h <;> cases h
  exact ⟨_, rfl, rfl⟩

theorem readAll_rest_error {text rest : List Char} {d : Datum} {e : ReadError}
    (hread : read text = .ok (d, rest)) (h : readAll text = .error e) :
    readAll rest = .error e := by
  rw [readAll_of_read hread] at h
  cases hrest : readAll rest <;> rw [hrest] at h <;> cases h
  rfl

theorem readAll_of_read_error {text : List Char} {e : ReadError} (hskip : skipLayout text ≠ [])
    (h : read text = .error e) : readAll text = .error e := by
  rw [readAll, items_of_read_error hskip h]
  rfl

/-- The data of the whole are found part by part, if the first part is read to its end. -/
theorem items_append_newline {text : List Char} {ds : List Datum} (h : readAll text = .ok ds)
    (more : List Char) : items (text ++ '\n' :: more) = items text ++ items more := by
  induction text using reading_induction generalizing ds with
  | layout text hskip =>
    rw [items_of_layout hskip, List.nil_append]
    exact items_congr (skipLayout_append_newline more hskip)
  | error text e hskip hread =>
    rw [readAll_of_read_error hskip hread] at h
    cases h
  | datum text d rest hread ih =>
    obtain ⟨ds', hrest, -⟩ := readAll_rest_ok hread h
    obtain ⟨rest', hread', hskip⟩ := readWithin_append_newline hread more
    rw [items_of_read hread, items_of_read hread', items_congr hskip, ih hrest, List.cons_append]

/-- The items of a text that is read on in from what is open in front of it. -/
def itemsWithin (openings : List Opening) (text : List Char) : List (Except ReadError Datum) :=
  match readWithin openings text with
  | .ok (d, rest) => .ok d :: items rest
  | .error e => [.error e]

theorem itemsWithin_of_read {openings : List Opening} {text rest : List Char} {d : Datum}
    (h : readWithin openings text = .ok (d, rest)) :
    itemsWithin openings text = .ok d :: items rest := by
  rw [itemsWithin, h]

/-- Text that ran out inside a datum has got somewhere: the datum goes on from there, behind the
data in front of it. -/
theorem items_append_newline_of_isIncomplete {text : List Char} {e : ReadError}
    (h : readAll text = .error e) (he : e.isIncomplete = true) :
    ∃ (ds : List Datum) (openings : List Opening), e = Opening.atEnd openings ∧
      items text = ds.map .ok ++ [.error e] ∧
      ∀ more, items (text ++ '\n' :: more) = ds.map .ok ++ itemsWithin openings more := by
  induction text using reading_induction generalizing e with
  | layout text hskip =>
    rw [readAll_of_layout hskip] at h
    cases h
  | error text e' hskip hread =>
    rw [readAll_of_read_error hskip hread] at h
    cases h
    obtain ⟨openings, hend, hmore⟩ := readWithin_append_newline_of_isIncomplete hread he
    refine ⟨[], openings, hend, items_of_read_error hskip hread, fun more ↦ ?_⟩
    rw [List.map_nil, List.nil_append, itemsWithin, ← hmore more]
    split
    next d rest hread' => exact items_of_read hread'
    next e'' he'' => exact items_of_read_error (skipLayout_append_ne_nil hskip _) he''
  | datum text d rest hread ih =>
    obtain ⟨ds, openings, hend, hitems, hmore⟩ := ih (readAll_rest_error hread h) he
    refine ⟨d :: ds, openings, hend, ?_, fun more ↦ ?_⟩
    · rw [items_of_read hread, hitems]
      rfl
    · obtain ⟨left, hread', hskip⟩ := readWithin_append_newline hread more
      rw [items_of_read hread', items_congr hskip, hmore]
      rfl

theorem readAll_append_newline_error {text : List Char} {e : ReadError}
    (h : readAll text = .error e) (he : e.isIncomplete = false) (more : List Char) :
    readAll (text ++ '\n' :: more) = .error e := by
  induction text using reading_induction with
  | layout text hskip =>
    rw [readAll_of_layout hskip] at h
    cases h
  | error text e' hskip hread =>
    rw [readAll_of_read_error hskip hread] at h
    cases h
    exact readAll_of_read_error (skipLayout_append_ne_nil hskip _)
      (readWithin_append_newline_error hread he more)
  | datum text d rest hread ih =>
    obtain ⟨left, hread', hskip⟩ := readWithin_append_newline hread more
    rw [readAll_of_read hread', readAll_congr hskip, ih (readAll_rest_error hread h)]
    rfl

theorem readAll_append_newline {text : List Char} {ds : List Datum} (h : readAll text = .ok ds)
    (more : List Char) : readAll (text ++ '\n' :: more) = (readAll more).map (ds ++ ·) := by
  rw [readAll, items_append_newline h, List.mapM_append, ← readAll, ← readAll, h]
  cases readAll more <;> rfl

theorem readAll_append_newline_nil (text : List Char) :
    readAll (text ++ ['\n']) = readAll text := by
  cases h : readAll text with
  | ok ds =>
    rw [readAll_append_newline h, readAll_of_layout rfl]
    exact congrArg Except.ok (List.append_nil ds)
  | error e =>
    cases he : e.isIncomplete with
    | false => exact readAll_append_newline_error h he []
    | true =>
      obtain ⟨ds, openings, hend, hitems, hmore⟩ := items_append_newline_of_isIncomplete h he
      rw [← h, readAll, readAll, hmore, hitems, itemsWithin, readWithin_of_next_none rfl, hend]

theorem readAll_append_error {text : List Char} {e : ReadError} (h : readAll text = .error e)
    (he : e.isIncomplete = false) (more : List Char) :
    ∃ e', readAll (text ++ more) = .error e' ∧ e.SameKind e' := by
  induction text using reading_induction with
  | layout text hskip =>
    rw [readAll_of_layout hskip] at h
    cases h
  | error text e' hskip hread =>
    rw [readAll_of_read_error hskip hread] at h
    cases h
    obtain ⟨e', hread', hkind⟩ := readWithin_append_error hread he more
    exact ⟨e', readAll_of_read_error (skipLayout_append_ne_nil hskip _) hread', hkind⟩
  | datum text d rest hread ih =>
    have hrest := readAll_rest_error hread h
    have hne : rest ≠ [] := by
      rintro rfl
      rw [readAll_of_layout rfl] at hrest
      cases hrest
    obtain ⟨e', hread', hkind⟩ := ih hrest
    refine ⟨e', ?_, hkind⟩
    rw [readAll_of_read (readWithin_append_of_ne_nil hread hne more), hread']
    rfl

/-- **Reading texts joined by a line feed.** Behind a text that was read to its end, another text is
read as if it stood alone: its data follow, or its error is the error. An error that does not come
from the end of the text is the error of every text that goes on in a new line. -/
theorem readAll_joined (text : List Char) :
    (∀ ds, readAll text = .ok ds → ∀ more,
      (∀ ds', readAll more = .ok ds' → readAll (text ++ '\n' :: more) = .ok (ds ++ ds')) ∧
        ∀ e, readAll more = .error e → readAll (text ++ '\n' :: more) = .error e) ∧
      ∀ e, readAll text = .error e → e.isIncomplete = false →
        ∀ more, readAll (text ++ '\n' :: more) = .error e := by
  refine ⟨fun ds h more ↦ ⟨fun ds' hmore ↦ ?_, fun e hmore ↦ ?_⟩,
    fun e h he ↦ readAll_append_newline_error h he⟩
  · rw [readAll_append_newline h, hmore]
    rfl
  · rw [readAll_append_newline h, hmore]
    rfl

/-- A `#` at the end takes the line feed with it and not the `t`, and the name in front of it does
not grow; digits that are too many do not become more. -/
theorem readAll_joined_hash :
    readAll "x#t #".toList = .ok [.symbol "x#t", .bool false] ∧
      readAll "t ; y".toList = .ok [.symbol "t"] ∧
      readAll "x#t #\nt ; y".toList = .ok [.symbol "x#t", .bool false, .symbol "t"] ∧
      readAll "x#t #\n)".toList = .error (.unexpectedChar ')') ∧
      readAll "9223372036854775808".toList = .error (.integerOverflow "9223372036854775808") ∧
      readAll "9223372036854775808\n0".toList =
        .error (.integerOverflow "9223372036854775808") := by
  have hfirst : readAll "x#t #".toList = .ok [.symbol "x#t", .bool false] := by
    rw [readAll_of_read (show read _ = .ok (.symbol "x#t", " #".toList) by cbv),
      readAll_of_read (show read _ = .ok (.bool false, []) by cbv), readAll_of_layout rfl]
    rfl
  have hsecond : readAll "t ; y".toList = .ok [.symbol "t"] := by
    rw [readAll_of_read (show read _ = .ok (.symbol "t", " ; y".toList) by cbv),
      readAll_of_layout (by decide)]
    rfl
  have hstray : readAll ")".toList = .error (.unexpectedChar ')') :=
    readAll_of_read_error (by decide) (by cbv)
  have hdigits : readAll "9223372036854775808".toList =
      .error (.integerOverflow "9223372036854775808") :=
    readAll_of_read_error (by decide) (readWithin_of_next_error rfl)
  exact ⟨hfirst, hsecond, ((readAll_joined _).1 _ hfirst _).1 _ hsecond,
    ((readAll_joined _).1 _ hfirst _).2 _ hstray, hdigits, (readAll_joined _).2 _ hdigits rfl _⟩

end Datum

end LexicalLisp
