import LexicalLisp.Datum.Cursor
import LexicalLisp.Proofs.Reading.Bytes

/-!
# Offsets and cursors

Reading at an offset of a text has a result everywhere but inside a character. When the result is a
datum, the offset behind it is a boundary further on, and the part of the text in between is all
that the datum depends on: cut off from the text, it is read as the same datum
(`Datum.exists_word_of_readAt`).

A cursor is an offset that is moved, and a move over a text is reading at its position
(`Cursor.moves_next`). It goes forward as long as it gives data and is at the end as soon as it
gives none, so after as many moves as the text has bytes no datum is left.
-/

namespace LexicalLisp

namespace Text

theorem byteLength_pos {text : List Char} (h : text ≠ []) : 0 < byteLength text := by
  obtain ⟨c, rest, rfl⟩ := List.exists_cons_of_ne_nil h
  exact Nat.lt_of_lt_of_le c.utf8Size_pos (Nat.le_add_right _ _)

end Text

/-! ## Reading at an offset -/

namespace Datum

variable {text rest : List Char} {offset next : Nat} {d : Datum}

theorem readAt_eq_none_iff :
    readAt text offset = none ↔
      offset < Text.byteLength text ∧ ¬Text.IsBoundary text offset := by
  rw [readAt, ← Text.splitAt?_eq_none_iff]
  split
  next h => exact iff_of_false (Option.some_ne_none _) fun hlt ↦ absurd hlt.1 (Nat.not_lt.mpr h)
  next h => rw [Option.map_eq_none_iff, and_iff_right (Nat.not_le.mp h)]

/-- A datum takes some of the text, and it is all that is read from this part. -/
theorem exists_word_of_read (h : read text = .ok (d, rest)) :
    ∃ word, text = word ++ rest ∧ word ≠ [] ∧ read word = .ok (d, []) := by
  obtain ⟨text', hl, hd⟩ := read_eq_iff_agrees.mp h
  have htakes : Takes (fun text rest ↦ read text = .ok (d, rest)) text rest :=
    hl.takes.trans hd.takes fun hl hd ↦ read_eq_iff_agrees.mpr ⟨_, hl, hd⟩
  obtain ⟨word, rfl, htake⟩ := htakes
  have hword := htake [] List.nil_prefix
  rw [List.append_nil] at hword
  refine ⟨word, rfl, ?_, hword⟩
  rintro rfl
  exact absurd (length_lt_of_read hword) (Nat.lt_irrefl _)

theorem readAt_of_read (before : List Char) {word : List Char}
    (h : read (word ++ rest) = .ok (d, rest)) :
    readAt (before ++ (word ++ rest)) (Text.byteLength before) =
      some (.ok (d, Text.byteLength before + Text.byteLength word)) := by
  rw [readAt_byteLength, h]
  simp only [Except.map, Text.byteLength_append, ← Nat.add_assoc, Nat.add_sub_cancel]

theorem readAt_zero_of_read {word : List Char} (h : read word = .ok (d, [])) :
    readAt word 0 = some (.ok (d, Text.byteLength word)) := by
  have hread : read (word ++ []) = .ok (d, []) := by rwa [List.append_nil]
  have hreadAt := readAt_of_read [] hread
  rwa [List.nil_append, List.append_nil, Text.byteLength_nil, Nat.zero_add] at hreadAt

theorem readAt_of_read_error (before : List Char) {e : ReadError} (h : read text = .error e) :
    readAt (before ++ text) (Text.byteLength before) = some (.error e) := by
  rw [readAt_byteLength, h]
  rfl

theorem exists_word_of_readAt (h : readAt text offset = some (.ok (d, next))) :
    ∃ before word rest, text = before ++ (word ++ rest) ∧ Text.byteLength before = offset ∧
      offset + Text.byteLength word = next ∧ word ≠ [] ∧ read word = .ok (d, []) := by
  obtain ⟨before, after, rfl, rfl⟩ : ∃ before after, text = before ++ after ∧
      Text.byteLength before = offset := by
    rw [readAt] at h
    split at h
    · cases h
    · obtain ⟨⟨before, after⟩, hsplit, -⟩ := Option.map_eq_some_iff.mp h
      exact ⟨before, after, Text.splitAt?_eq_some_iff.mp hsplit⟩
  rw [readAt_byteLength] at h
  obtain ⟨⟨d', rest⟩, hread, -⟩ := map_eq_ok_iff.mp (Option.some.inj h)
  obtain ⟨word, rfl, hne, hword⟩ := exists_word_of_read hread
  rw [← readAt_byteLength, readAt_of_read before hread] at h
  cases h
  exact ⟨before, word, rest, rfl, rfl, rfl, hne, hword⟩

end Datum

/-! ## Moves of a cursor -/

namespace Cursor

variable {text rest : List Char} {c : Cursor} {d : Datum}

theorem next_of_layout (h : skipLayout c.rest = []) : c.next = (none, c.advanceTo []) := by
  rw [next, h]

theorem next_of_read (h : Datum.read c.rest = .ok (d, rest)) :
    c.next = (some (.ok d), c.advanceTo rest) := by
  have hread : Datum.read (skipLayout c.rest) = .ok (d, rest) :=
    (Datum.readWithin_congr (skipLayout_skipLayout c.rest) []).trans h
  rw [next]
  split
  next hskip => exact absurd hskip (Datum.skipLayout_ne_nil_of_read h)
  next => rw [hread]

theorem next_of_read_error {e : ReadError} (hskip : skipLayout c.rest ≠ [])
    (h : Datum.read c.rest = .error e) : c.next = (some (.error e), c.advanceTo []) := by
  have hread : Datum.read (skipLayout c.rest) = .error e :=
    (Datum.readWithin_congr (skipLayout_skipLayout c.rest) []).trans h
  rw [next]
  split
  next hskip' => exact absurd hskip' hskip
  next => rw [hread]

/-- The cursor stands in the text: what is ahead is the text from its position on. -/
def In (text : List Char) (c : Cursor) : Prop :=
  ∃ before, text = before ++ c.rest ∧ Text.byteLength before = c.position

theorem in_start (text : List Char) : (start text).In text := ⟨[], rfl, rfl⟩

theorem position_advanceTo {word : List Char} (h : c.rest = word ++ rest) :
    (c.advanceTo rest).position = c.position + Text.byteLength word := by
  rw [advanceTo, h, Text.byteLength_append, Nat.add_sub_cancel]

theorem In.advanceTo {word : List Char} (hc : c.In text) (h : c.rest = word ++ rest) :
    (c.advanceTo rest).In text := by
  obtain ⟨before, htext, hposition⟩ := hc
  refine ⟨before ++ word, ?_, ?_⟩
  · rw [htext, h, List.append_assoc]
    rfl
  · rw [position_advanceTo h, Text.byteLength_append, hposition]

theorem In.position_le (hc : c.In text) : c.position ≤ Text.byteLength text := by
  obtain ⟨before, rfl, hposition⟩ := hc
  rw [← hposition, Text.byteLength_append]
  exact Nat.le_add_right _ _

theorem In.position_eq (hc : c.In text) (h : c.rest = []) : c.position = Text.byteLength text := by
  obtain ⟨before, rfl, hposition⟩ := hc
  rw [h, List.append_nil, hposition]

/-- What a move from one position of the text to another gives. -/
inductive Moves (text : List Char) : Nat → Option (Except ReadError Datum) → Cursor → Prop
  | datum {position : Nat} {d : Datum} {c : Cursor}
    (hread : Datum.readAt text position = some (.ok (d, c.position)))
    (hlt : position < c.position) : Moves text position (some (.ok d)) c
  | error {position : Nat} {e : ReadError} {c : Cursor}
    (hread : Datum.readAt text position = some (.error e)) (hend : c.rest = []) :
    Moves text position (some (.error e)) c
  | done {position : Nat} {c : Cursor}
    (hread : Datum.readAt text position = some (.error .unexpectedEnd)) (hend : c.rest = []) :
    Moves text position none c

section Moves

variable {position : Nat} {item : Option (Except ReadError Datum)}

theorem Moves.readAt_eq (h : Moves text position (some (.ok d)) c) :
    Datum.readAt text position = some (.ok (d, c.position)) ∧ position < c.position := by
  cases h with
  | datum hread hlt => exact ⟨hread, hlt⟩

theorem Moves.readAt_eq_error {e : ReadError} (h : Moves text position (some (.error e)) c) :
    Datum.readAt text position = some (.error e) := by
  cases h with
  | error hread _ => exact hread

theorem Moves.rest_eq_nil (h : Moves text position item c) (hitem : ∀ d, item ≠ some (.ok d)) :
    c.rest = [] := by
  cases h with
  | datum => exact absurd rfl (hitem _)
  | error _ hend => exact hend
  | done _ hend => exact hend

theorem Moves.rest_eq_nil_or_lt (h : Moves text position item c) :
    c.rest = [] ∨ position < c.position := by
  cases h with
  | datum _ hlt => exact .inr hlt
  | error _ hend => exact .inl hend
  | done _ hend => exact .inl hend

end Moves

/-- A cursor in a text moves by reading at its position. -/
theorem moves_next (hc : c.In text) :
    Moves text c.position c.next.1 c.next.2 ∧ c.next.2.In text := by
  obtain ⟨before, htext, hposition⟩ := id hc
  by_cases hskip : skipLayout c.rest = []
  · have hread : Datum.read c.rest = .error .unexpectedEnd :=
      Datum.readWithin_of_next_none (Lexeme.next_eq_none_iff.mpr hskip)
    rw [next_of_layout hskip, htext, ← hposition]
    exact ⟨.done (Datum.readAt_of_read_error before hread) rfl,
      htext ▸ hc.advanceTo (List.append_nil _).symm⟩
  cases hread : Datum.read c.rest with
  | error e =>
    rw [next_of_read_error hskip hread, htext, ← hposition]
    exact ⟨.error (Datum.readAt_of_read_error before hread) rfl,
      htext ▸ hc.advanceTo (List.append_nil _).symm⟩
  | ok found =>
    obtain ⟨d, rest⟩ := found
    obtain ⟨word, hrest, hne, -⟩ := Datum.exists_word_of_read hread
    rw [next_of_read hread]
    refine ⟨.datum ?_ ?_, hc.advanceTo hrest⟩
    · rw [position_advanceTo hrest, htext, ← hposition, hrest]
      exact Datum.readAt_of_read before (hrest ▸ hread)
    · rw [position_advanceTo hrest]
      exact Nat.lt_add_of_pos_right (Text.byteLength_pos hne)

theorem next_of_rest_eq_nil (h : c.rest = []) : c.next = (none, c) := by
  obtain ⟨position, rest⟩ := c
  cases h
  rfl

/-! ## All moves over a text -/

/-- The cursor in front of a text after this many moves. -/
def moved (text : List Char) : Nat → Cursor
  | 0 => start text
  | count + 1 => (moved text count).next.2

theorem in_moved (text : List Char) (count : Nat) : (moved text count).In text := by
  induction count with
  | zero => exact in_start text
  | succ count ih => exact (moves_next ih).2

theorem moved_eq_of_rest_eq_nil {count more : Nat} (h : (moved text count).rest = [])
    (hle : count ≤ more) : moved text more = moved text count := by
  induction hle with
  | refl => rfl
  | step _ ih => rw [moved, ih, next_of_rest_eq_nil h]

/-- Every move passes a byte, until the end has been reached. -/
theorem le_position_moved (text : List Char) (count : Nat) :
    (moved text count).rest = [] ∨ count ≤ (moved text count).position := by
  induction count with
  | zero => exact .inr (Nat.zero_le _)
  | succ count ih =>
    rcases ih with hend | hle
    · rw [moved_eq_of_rest_eq_nil hend (Nat.le_succ count)]
      exact .inl hend
    · have hmoves := (moves_next (in_moved text count)).1
      exact hmoves.rest_eq_nil_or_lt.imp_right (Nat.lt_of_le_of_lt hle)

theorem lt_byteLength_of_next {count : Nat} (h : (moved text count).next.1 = some (.ok d)) :
    count < Text.byteLength text := by
  have hin := in_moved text count
  obtain ⟨hmoves, hin'⟩ := moves_next hin
  rw [h] at hmoves
  rcases le_position_moved text count with hend | hle
  · rw [next_of_rest_eq_nil hend] at h
    cases h
  · calc count ≤ (moved text count).position := hle
      _ < (moved text count).next.2.position := hmoves.readAt_eq.2
      _ ≤ Text.byteLength text := hin'.position_le

end Cursor

/-- **Offsets are safe and advance.** Reading by bytes is reading, and at an offset it gives no
result if and only if the offset is inside a character. A datum ends at a boundary further on, and
the part of the text up to there, cut off from the rest, is read as the same datum.

The moves of a cursor over the text give what is read at its position. A move that gives a datum
goes forward, and there are at most as many of them as the text has bytes. After a move that gives
none the position is the length of the text, and nothing more is given. -/
theorem reading_advances (text : List Char) :
    (∀ offset, Datum.scanAt text offset = Datum.readAt text offset) ∧
    (∀ offset, Datum.readAt text offset = none ↔
      offset < Text.byteLength text ∧ ¬Text.IsBoundary text offset) ∧
    (∀ offset d next, Datum.readAt text offset = some (.ok (d, next)) →
      offset < next ∧ next ≤ Text.byteLength text ∧ Text.IsBoundary text next ∧
        ∃ before word rest, text = before ++ (word ++ rest) ∧ Text.byteLength before = offset ∧
          Text.byteLength (before ++ word) = next ∧
          Datum.readAt word 0 = some (.ok (d, next - offset))) ∧
    ∀ count,
      let c := Cursor.moved text count
      (∀ d, c.next.1 = some (.ok d) →
        Datum.readAt text c.position = some (.ok (d, c.next.2.position)) ∧
          c.position < c.next.2.position ∧ count < Text.byteLength text) ∧
      (∀ e, c.next.1 = some (.error e) → Datum.readAt text c.position = some (.error e)) ∧
      ((∀ d, c.next.1 ≠ some (.ok d)) → ∀ later, count < later →
        (Cursor.moved text later).position = Text.byteLength text ∧
          (Cursor.moved text later).next.1 = none) := by
  refine ⟨Datum.scanAt_eq_readAt text, fun offset ↦ Datum.readAt_eq_none_iff,
    fun offset d next h ↦ ?_, fun count ↦ ?_⟩
  · obtain ⟨before, word, rest, rfl, rfl, rfl, hne, hword⟩ := Datum.exists_word_of_readAt h
    have hnext := Text.byteLength_append before word
    refine ⟨Nat.lt_add_of_pos_right (Text.byteLength_pos hne), ?_,
      Text.isBoundary_iff.mpr ⟨before ++ word, rest, (List.append_assoc ..).symm, hnext⟩,
      before, word, rest, rfl, rfl, hnext, ?_⟩
    · rw [Text.byteLength_append, Text.byteLength_append]
      exact Nat.add_le_add_left (Nat.le_add_right _ _) _
    · rw [Nat.add_sub_cancel_left]
      exact Datum.readAt_zero_of_read hword
  · intro c
    obtain ⟨hmoves, hin⟩ := Cursor.moves_next (Cursor.in_moved text count)
    refine ⟨fun d h ↦ ?_, fun e h ↦ ?_, fun hno later hlater ↦ ?_⟩
    · obtain ⟨hread, hlt⟩ := Cursor.Moves.readAt_eq (h ▸ hmoves)
      exact ⟨hread, hlt, Cursor.lt_byteLength_of_next h⟩
    · exact Cursor.Moves.readAt_eq_error (h ▸ hmoves)
    · have hend : (Cursor.moved text (count + 1)).rest = [] := hmoves.rest_eq_nil hno
      rw [Cursor.moved_eq_of_rest_eq_nil hend hlater, Cursor.next_of_rest_eq_nil hend]
      exact ⟨hin.position_eq hend, rfl⟩

/-- A `#` takes a character of two bytes with it, inside of which nothing is read. Behind it, the
second move finds an error. -/
theorem reading_advances_wide_character :
    let text := ['#', 'é', ')']
    Datum.scanAt text 2 = none ∧
      (Datum.readAt text 0 = some (.ok (.bool false, 3)) ∧
        ∃ before word rest, text = before ++ (word ++ rest) ∧ Text.byteLength before = 0 ∧
          Text.byteLength (before ++ word) = 3 ∧
          Datum.readAt word 0 = some (.ok (.bool false, 3))) ∧
      ((Cursor.moved text 0).next.1 = some (.ok (.bool false)) ∧
        (Cursor.moved text 0).position < (Cursor.moved text 0).next.2.position) ∧
      (Cursor.moved text 1).next.1 = some (.error (.unexpectedChar ')')) ∧
        (Cursor.moved text 2).position = Text.byteLength text ∧
          (Cursor.moved text 2).next.1 = none := by
  intro text
  obtain ⟨hscan, hnone, hcut, hmoves⟩ := reading_advances text
  have hsplit : Text.splitAt? 2 text = none := by decide
  have hinside : Datum.readAt text 2 = none :=
    (hnone 2).mpr ⟨by decide, Text.splitAt?_eq_none_iff.mp hsplit⟩
  have hread : Datum.read (['#', 'é'] ++ [')']) = .ok (.bool false, [')']) := by cbv
  have hreadAt : Datum.readAt text 0 = some (.ok (.bool false, 3)) := Datum.readAt_of_read [] hread
  have hfirst : (Cursor.moved text 0).next =
      (some (.ok (.bool false)), (Cursor.moved text 0).advanceTo [')']) := Cursor.next_of_read hread
  have hsecond : (Cursor.moved text 1).next.1 = some (.error (.unexpectedChar ')')) := by
    have hstray : Datum.read [')'] = .error (.unexpectedChar ')') := by cbv
    rw [Cursor.moved, hfirst, Cursor.next_of_read_error (by decide) hstray]
  have hfails : ∀ d, (Cursor.moved text 1).next.1 ≠ some (.ok d) := by
    intro d h
    cases hsecond.symm.trans h
  have hgives := congrArg Prod.fst hfirst
  exact ⟨(hscan 2).trans hinside, ⟨hreadAt, (hcut _ _ _ hreadAt).2.2.2⟩,
    ⟨hgives, ((hmoves 0).1 _ hgives).2.1⟩, hsecond, (hmoves 1).2.2 hfails 2 (by decide)⟩

end LexicalLisp
