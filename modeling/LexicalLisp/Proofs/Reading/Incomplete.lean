import LexicalLisp.Proofs.Reading.Continuation

/-!
# Text that stops too early

`ReadError.isIncomplete` says of an error whether more text could still mend the matter. It is
exact: if it holds, some text behind the failed one makes all of it readable, and if it does not,
every longer text fails for the same reason (`isIncomplete_iff_exists_readAll_append`).

The text that completes a broken-off one can be read off what is open at its end. It begins with a
line feed, so that nothing in front of it can grow, and goes on with one datum for a quote mark
that may be waiting for it and a parenthesis for every open list (`Opening.completion`).
-/

namespace LexicalLisp

namespace Opening

/-- The parentheses that close the open lists. -/
def closing : List Opening → List Char
  | [] => []
  | quote :: outer => closing outer
  | list _ :: outer => ')' :: closing outer

/-- A text that finishes everything that is open. Its datum is a truth value, which no parenthesis
behind it can become a part of. -/
def completion (openings : List Opening) : List Char := '#' :: 'f' :: closing openings

theorem exists_resume_closing (openings : List Opening) (d : Datum) :
    ∃ d', (deliver openings d).resume (closing openings) = .ok (d', []) := by
  induction openings generalizing d with
  | nil => exact ⟨d, rfl⟩
  | cons opening outer ih =>
    cases opening with
    | quote => exact ih (.quote d)
    | list items =>
      obtain ⟨d', hd⟩ := ih (.list (d :: items).reverse)
      have hnext : Lexeme.next (closing (list items :: outer)) =
          .ok (some (.closeList, closing outer)) :=
        Lexeme.next_eq_some_iff.mpr ⟨')', closing outer, by simp [closing, skipLayout,
          Text.isSpace], rfl⟩
      refine ⟨d', ?_⟩
      rw [deliver, Progress.resume, Datum.readWithin_of_advance hnext rfl]
      exact hd

theorem exists_readWithin_completion (openings : List Opening) :
    ∃ d, Datum.readWithin openings (completion openings) = .ok (d, []) := by
  have hnext : Lexeme.next (completion openings) =
      .ok (some (.atom (.bool false), closing openings)) :=
    Lexeme.next_eq_some_iff.mpr ⟨'#', 'f' :: closing openings, by simp [completion, skipLayout,
      Text.isSpace], rfl⟩
  obtain ⟨d, hd⟩ := exists_resume_closing openings (.bool false)
  refine ⟨d, ?_⟩
  rw [Datum.readWithin_of_advance hnext rfl]
  exact hd

end Opening

namespace Datum

theorem readAll_eq_ok_of_items {text : List Char} {ds : List Datum}
    (h : items text = ds.map .ok) : readAll text = .ok ds := by
  rw [readAll, h]
  clear h
  induction ds with
  | nil => rfl
  | cons d ds ih =>
    rw [List.map_cons, List.mapM_cons, ih]
    rfl

/-- What is missing from a text that stops too early can be supplied. -/
theorem exists_readAll_append_newline {text : List Char} {e : ReadError}
    (h : readAll text = .error e) (he : e.isIncomplete = true) :
    ∃ openings ds, e = Opening.atEnd openings ∧
      readAll (text ++ '\n' :: Opening.completion openings) = .ok ds := by
  obtain ⟨ds, openings, hend, -, hmore⟩ := items_append_newline_of_isIncomplete h he
  obtain ⟨d, hd⟩ := Opening.exists_readWithin_completion openings
  refine ⟨openings, ds ++ [d], hend, readAll_eq_ok_of_items ?_⟩
  rw [hmore, itemsWithin_of_read hd, items_of_layout rfl, List.map_append]
  rfl

/-- **Incompleteness is exact.** An error is incomplete if and only if some longer text can be read
to its end, and an error that is not is met again in every longer text. -/
theorem isIncomplete_iff_exists_readAll_append {text : List Char} {e : ReadError}
    (h : readAll text = .error e) :
    (e.isIncomplete = true ↔ ∃ more ds, readAll (text ++ more) = .ok ds) ∧
      (e.isIncomplete = false →
        ∀ more, ∃ e', readAll (text ++ more) = .error e' ∧ e.SameKind e') := by
  have hfails : e.isIncomplete = false →
      ∀ more, ∃ e', readAll (text ++ more) = .error e' ∧ e.SameKind e' :=
    fun he more ↦ readAll_append_error h he more
  refine ⟨⟨fun he ↦ ?_, ?_⟩, hfails⟩
  · obtain ⟨openings, ds, -, hds⟩ := exists_readAll_append_newline h he
    exact ⟨_, ds, hds⟩
  · rintro ⟨more, ds, hds⟩
    cases he : e.isIncomplete with
    | true => rfl
    | false =>
      obtain ⟨e', he', -⟩ := hfails he more
      cases he'.symm.trans hds

/-- A quote mark in an open list waits for its datum; a parenthesis that closes nothing is wrong
for good. -/
theorem isIncomplete_open_quote :
    (readAll "(f '".toList = .error .unterminatedList ∧
        ∃ more ds, readAll ("(f '".toList ++ more) = .ok ds) ∧
      readAll "x ) y".toList = .error (.unexpectedChar ')') ∧
        ∀ more, ∃ e, readAll ("x ) y".toList ++ more) = .error e ∧
          (ReadError.unexpectedChar ')').SameKind e := by
  have hopen : readAll "(f '".toList = .error .unterminatedList :=
    readAll_of_read_error (by decide) (by cbv)
  have hstray : readAll "x ) y".toList = .error (.unexpectedChar ')') := by
    rw [readAll_of_read (show read _ = .ok (.symbol "x", " ) y".toList) by cbv),
      readAll_of_read_error (by decide) (show read _ = .error (.unexpectedChar ')') by cbv)]
    rfl
  exact ⟨⟨hopen, (isIncomplete_iff_exists_readAll_append hopen).1.mp rfl⟩, hstray,
    (isIncomplete_iff_exists_readAll_append hstray).2 rfl⟩

end Datum

end LexicalLisp
