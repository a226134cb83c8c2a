import LexicalLisp.Proofs.Reading.Continuation
import LexicalLisp.Proofs.Reading.Grammar

/-!
# The reader accepts the grammar

A datum is read if and only if it is written behind layout, and an error is reported if and only if
everything in front of some place is in order and the place offends in just this way
(`Datum.readAt_accepts_exactly_the_grammar`). So the two descriptions share nothing but the classes
of characters: the grammar has no memory, and the reader has no lookahead.

One direction is by induction on what is written: read in front of which everything is open that
is, a datum is delivered to the innermost opening (`Datum.readWithin_of_written`). The other one
follows the reader. With every lexeme it comes to a further place (`Reaches.advance`), until the
datum is complete or the place offends (`Datum.agrees_readWithin`).
-/

namespace LexicalLisp

/-! ## Results -/

section

variable {α β ε : Type} {x : Except ε α} {f : α → β}

theorem map_eq_ok_iff {b : β} : x.map f = .ok b ↔ ∃ a, x = .ok a ∧ f a = b := by
  cases x <;> simp [Except.map]

theorem map_eq_error_iff {e : ε} : x.map f = .error e ↔ x = .error e := by
  cases x <;> simp [Except.map]

end

/-! ## Classes of characters -/

namespace Text

theorem isNameChar_eq_false_iff {c : Char} :
    isNameChar c = false ↔ isSpace c = true ∨ isDelimiter c = true := by
  cases hs : isSpace c <;> cases hd : isDelimiter c <;> simp [isNameChar, hs, hd]

theorem isNameChar_of_isDigit {c : Char} (h : c.isDigit = true) : isNameChar c = true := by
  cases hc : isNameChar c with
  | true => rfl
  | false =>
    rw [isNameChar_eq_false_iff] at hc
    simp only [isSpace, isDelimiter, Bool.or_eq_true, beq_iff_eq] at hc
    rcases hc with ((((rfl | rfl) | rfl) | rfl) | rfl) | ((((rfl | rfl) | rfl) | rfl) | rfl) <;>
      exact absurd h (by decide)

end Text

theorem skipLayout_of_isNameChar {c : Char} (h : Text.isNameChar c = true) (rest : List Char) :
    skipLayout (c :: rest) = c :: rest := by
  simp only [Text.isNameChar, Bool.and_eq_true, Bool.not_eq_true'] at h
  refine skipLayout_eq_self h.1 ?_
  rintro rfl
  exact absurd h.2 (by decide)

/-! ## What is written is read -/

namespace Lexeme

variable {rest : List Char}

theorem next_of_start {c : Char} {tail : List Char} {l : Lexeme} (hs : Text.isSpace c = false)
    (hc : c ≠ ';') (h : start c tail = .ok (l, rest)) : next (c :: tail) = .ok (some (l, rest)) :=
  next_eq_some_iff.mpr ⟨c, tail, skipLayout_eq_self hs hc, h⟩

theorem next_openList : next ('(' :: rest) = .ok (some (openList, rest)) :=
  next_of_start (by decide) (by decide) rfl

theorem next_closeList : next (')' :: rest) = .ok (some (closeList, rest)) :=
  next_of_start (by decide) (by decide) rfl

theorem next_quote : next (Text.quoteMark :: rest) = .ok (some (quote, rest)) :=
  next_of_start (by decide) (by decide) rfl

theorem next_hash : next ('#' :: rest) = .ok (some (afterHash rest)) :=
  next_of_start (by decide) (by decide) rfl

theorem next_digits {digits : List Char} (hne : digits ≠ [])
    (hdigits : ∀ c ∈ digits, c.isDigit = true) (hrest : Text.Stops Char.isDigit rest) :
    next (digits ++ rest) = (ofDigits digits).map fun l ↦ some (l, rest) := by
  obtain ⟨c, tail, rfl⟩ := List.exists_cons_of_ne_nil hne
  rw [List.forall_mem_cons] at hdigits
  rw [List.cons_append, next, skipLayout_of_isNameChar (Text.isNameChar_of_isDigit hdigits.1)]
  dsimp only
  rw [start_digit hdigits.1, Text.takeWhile_append_of_stops hdigits.2 hrest,
    Text.dropWhile_append_of_stops hdigits.2 hrest]
  cases ofDigits (c :: tail) <;> rfl

theorem next_name {word : List Char} (hword : Text.IsName word)
    (hrest : Text.Stops Text.isNameChar rest) :
    next (word ++ rest) = .ok (some (atom (.symbol (String.ofList word)), rest)) := by
  obtain ⟨hne, hchars, hhead⟩ := hword
  obtain ⟨c, tail, rfl⟩ := List.exists_cons_of_ne_nil hne
  rw [List.forall_mem_cons] at hchars
  obtain ⟨hdigit, hhash, hquote⟩ := hhead c rfl
  have hdelimiter : Text.isDelimiter c = false := by
    have hc := hchars.1
    simp only [Text.isNameChar, Bool.and_eq_true, Bool.not_eq_true'] at hc
    exact hc.2
  refine next_eq_some_iff.mpr ⟨c, tail ++ rest, skipLayout_of_isNameChar hchars.1 _, ?_⟩
  rw [start_name ⟨hdelimiter, hdigit, hhash, hquote⟩,
    Text.takeWhile_append_of_stops hchars.2 hrest, Text.dropWhile_append_of_stops hchars.2 hrest]

end Lexeme

namespace Datum

open Lexeme

theorem next_integer {digits rest : List Char} {value : Fixnum} (hne : digits ≠ [])
    (hdigits : ∀ c ∈ digits, c.isDigit = true) (hrest : Text.Stops Char.isDigit rest)
    (hvalue : value.val = Nat.ofDigitChars 10 digits 0) :
    next (digits ++ rest) = .ok (some (.atom (.integer value), rest)) := by
  rw [next_digits hne hdigits hrest, ofDigits, ← hvalue, Fixnum.ofInt?_val]
  rfl

mutual

/-- A datum is read where it is written, whatever is open in front of it. -/
theorem readWithin_of_written (openings : List Opening) :
    ∀ {text : List Char} {d : Datum} {rest : List Char}, Written text d rest →
      readWithin openings text = (Opening.deliver openings d).resume rest
  | _, _, _, .integer hne hdigits hrest hvalue =>
    readWithin_of_advance (next_integer hne hdigits hrest hvalue) rfl
  | _, _, _, .bool c rest => readWithin_of_advance next_hash rfl
  | _, _, _, .boolAtEnd => readWithin_of_advance next_hash rfl
  | _, _, _, .symbol hword hrest => readWithin_of_advance (next_name hword hrest) rfl
  | _, _, _, .quote hl h => by
    rw [readWithin_of_advance next_quote rfl, Progress.resume,
      readWithin_congr hl.skipLayout_eq, readWithin_of_written (.quote :: openings) h]
    rfl
  | _, _, _, .list h => by
    rw [readWithin_of_advance next_openList rfl, Progress.resume,
      readWithin_of_allWritten openings [] h, List.append_nil,
      readWithin_of_advance next_closeList rfl, List.reverse_reverse]

theorem readWithin_of_allWritten (outer : List Opening) :
    ∀ (items : List Datum) {text : List Char} {ds : List Datum} {rest : List Char},
      AllWritten text ds rest → readWithin (.list items :: outer) text =
        readWithin (.list (ds.reverse ++ items) :: outer) rest
  | items, _, _, _, .nil hl => readWithin_congr hl.skipLayout_eq _
  | items, _, _, _, .cons (d := d) hl hd h => by
    rw [readWithin_congr hl.skipLayout_eq, readWithin_of_written _ hd, Opening.deliver,
      Progress.resume, readWithin_of_allWritten outer (d :: items) h, List.reverse_cons,
      List.append_assoc, List.singleton_append]

end

/-- The reader comes to every place that can be come to, with the same open. -/
theorem read_eq_readWithin_of_reaches {text rest : List Char} {openings : List Opening}
    (h : Reaches text rest openings) : read text = readWithin openings rest := by
  induction h with
  | start hl => exact readWithin_congr hl.skipLayout_eq []
  | @list inner rest items outer _ hitems ih =>
    rw [ih, readWithin_of_advance next_openList rfl, Progress.resume,
      readWithin_of_allWritten outer [] hitems, List.reverse_reverse, List.append_nil]
  | quote _ hl ih =>
    rw [ih, readWithin_of_advance next_quote rfl, Progress.resume,
      readWithin_congr hl.skipLayout_eq]

end Datum

namespace Opening

variable {openings : List Opening}

theorem atEnd_eq_unterminatedList {items : List Datum} (h : list items ∈ openings) :
    atEnd openings = .unterminatedList := by
  induction openings with
  | nil => cases h
  | cons opening outer ih =>
    cases opening with
    | list items => rfl
    | quote => exact ih ((List.mem_cons.mp h).resolve_left nofun)

theorem atEnd_eq_unexpectedEnd (h : ∀ items, list items ∉ openings) :
    atEnd openings = .unexpectedEnd := by
  induction openings with
  | nil => rfl
  | cons opening outer ih =>
    cases opening with
    | list items => exact absurd List.mem_cons_self (h items)
    | quote => exact ih fun items hmem ↦ h items (List.mem_cons_of_mem _ hmem)

theorem advance_closeList (h : ∀ items outer, openings ≠ list items :: outer) :
    advance openings .closeList = .error (.unexpectedChar ')') := by
  cases openings with
  | nil => rfl
  | cons opening outer =>
    cases opening with
    | list items => exact absurd rfl (h items outer)
    | quote => rfl

end Opening

namespace Datum

open Lexeme

theorem next_brace {c : Char} (h : c = '{' ∨ c = '}') (rest : List Char) :
    next (c :: rest) = .error (.unexpectedChar c) := by
  rcases h with rfl | rfl
  · exact next_eq_error_iff.mpr ⟨_, rest, skipLayout_eq_self (by decide) (by decide), rfl⟩
  · exact next_eq_error_iff.mpr ⟨_, rest, skipLayout_eq_self (by decide) (by decide), rfl⟩

theorem next_digits_out_of_range {digits rest : List Char} (hne : digits ≠ [])
    (hdigits : ∀ c ∈ digits, c.isDigit = true) (hrest : Text.Stops Char.isDigit rest)
    (hvalue : 9223372036854775807 < Nat.ofDigitChars 10 digits 0) :
    next (digits ++ rest) = .error (.integerOverflow (String.ofList digits)) := by
  have hout : Fixnum.ofInt? (Nat.ofDigitChars 10 digits 0) = none := by
    rw [Fixnum.ofInt?_eq_none_iff]
    omega
  rw [next_digits hne hdigits hrest, ofDigits_eq_error_iff.mpr ⟨hout, rfl⟩]
  rfl

theorem readWithin_of_offends {openings : List Opening} {rest : List Char} {e : ReadError}
    (h : Offends openings rest e) : readWithin openings rest = .error e := by
  cases h with
  | ended h => rw [readWithin_of_next_none rfl, Opening.atEnd_eq_unexpectedEnd h]
  | endedInList h => rw [readWithin_of_next_none rfl, Opening.atEnd_eq_unterminatedList h]
  | close h => exact readWithin_of_advance_error next_closeList (Opening.advance_closeList h)
  | brace h => exact readWithin_of_next_error (next_brace h _)
  | digits hne hdigits hrest hvalue =>
    exact readWithin_of_next_error (next_digits_out_of_range hne hdigits hrest hvalue)

end Datum

/-! ## What is read is written -/

namespace Lexeme

/-- The text begins with the lexeme, and the rest is behind it. -/
def Begins : Lexeme → List Char → List Char → Prop
  | openList, text, rest => text = '(' :: rest
  | closeList, text, rest => text = ')' :: rest
  | quote, text, rest => text = Text.quoteMark :: rest
  | atom d, text, rest => Datum.Written text d rest

private theorem forall_mem_run {p : Char → Bool} {c : Char} (hc : p c = true) (tail : List Char) :
    ∀ a ∈ c :: tail.takeWhile p, p a = true :=
  List.forall_mem_cons.mpr ⟨hc, List.all_eq_true.mp List.all_takeWhile⟩

theorem cons_eq_run_append (p : Char → Bool) (c : Char) (tail : List Char) :
    c :: tail = (c :: tail.takeWhile p) ++ tail.dropWhile p := by
  rw [List.cons_append, List.takeWhile_append_dropWhile]

theorem exists_begins_of_next {text rest : List Char} {l : Lexeme}
    (h : next text = .ok (some (l, rest))) : ∃ text', Layout text text' ∧ l.Begins text' rest := by
  obtain ⟨c, tail, hskip, hs⟩ := next_eq_some_iff.mp h
  refine ⟨c :: tail, hskip ▸ layout_skipLayout text, ?_⟩
  cases Initial.of c with
  | openList | closeList | quote =>
    cases hs
    exact rfl
  | hash =>
    cases tail with
    | nil =>
      cases hs
      exact .boolAtEnd
    | cons a tail =>
      cases hs
      exact .bool _ _
  | digit hd =>
    obtain ⟨hv, rfl⟩ := (start_digit_eq_ok_iff hd).mp hs
    obtain ⟨value, hvalue, rfl⟩ := exists_atom_of_ofDigits hv
    rw [cons_eq_run_append Char.isDigit c tail]
    exact .integer (List.cons_ne_nil _ _) (forall_mem_run hd tail) (Text.stops_dropWhile tail)
      hvalue
  | stray hd ho hc =>
    rw [start_stray hd ho hc] at hs
    cases hs
  | name hn =>
    rw [start_name hn] at hs
    cases hs
    have hchar : Text.isNameChar c = true := by
      simp [Text.isNameChar, (not_layout_of_skipLayout hskip).1, hn.1]
    have hword : Text.IsName (c :: tail.takeWhile Text.isNameChar) := by
      refine ⟨List.cons_ne_nil _ _, forall_mem_run hchar tail, ?_⟩
      rintro _ ⟨⟩
      exact hn.2
    have hwritten := Datum.Written.symbol hword (Text.stops_dropWhile tail)
    rwa [← cons_eq_run_append Text.isNameChar c tail] at hwritten

/-- What is no lexeme offends, whatever is open. -/
theorem exists_offends_of_next {text : List Char} {e : ReadError} (h : next text = .error e)
    (openings : List Opening) : ∃ text', Layout text text' ∧ Offends openings text' e := by
  obtain ⟨c, tail, hskip, hs⟩ := next_eq_error_iff.mp h
  refine ⟨c :: tail, hskip ▸ layout_skipLayout text, ?_⟩
  cases Initial.of c with
  | openList | closeList | quote | hash => cases hs
  | digit hd =>
    obtain ⟨hv, rfl⟩ := ofDigits_eq_error_iff.mp ((start_digit_eq_error_iff hd).mp hs)
    have hvalue := Fixnum.ofInt?_eq_none_iff.mp hv
    rw [cons_eq_run_append Char.isDigit c tail]
    exact .digits (List.cons_ne_nil _ _) (forall_mem_run hd tail) (Text.stops_dropWhile tail)
      (by omega)
  | stray hd ho hc =>
    rw [start_stray hd ho hc] at hs
    cases hs
    have hsemicolon := (not_layout_of_skipLayout hskip).2
    simp only [Text.isDelimiter, Bool.or_eq_true, beq_iff_eq, ho, hc, hsemicolon, or_false,
      false_or] at hd
    exact .brace hd
  | name hn =>
    rw [start_name hn] at hs
    cases hs

end Lexeme

namespace Datum

theorem AllWritten.layout {rest' : List Char} :
    ∀ {text : List Char} {ds : List Datum} {rest : List Char}, AllWritten text ds rest →
      Layout rest rest' → AllWritten text ds rest'
  | _, _, _, .nil hl, hl' => .nil (hl.trans hl')
  | _, _, _, .cons hl hd h, hl' => .cons hl hd (h.layout hl')

theorem AllWritten.concat {d' : Datum} {rest' : List Char} :
    ∀ {text : List Char} {ds : List Datum} {rest : List Char}, AllWritten text ds rest →
      Written rest d' rest' → AllWritten text (ds ++ [d']) rest'
  | _, _, _, .nil hl, hd' => .cons hl hd' (.nil (.nil _))
  | _, _, _, .cons hl hd h, hd' => .cons hl hd (h.concat hd')

end Datum

/-- What is known of a text when a reading of it has got so far. -/
def Progress.At (text rest : List Char) : Progress → Prop
  | complete d => ∃ text', Layout text text' ∧ Datum.Written text' d rest
  | pending openings => Reaches text rest openings

namespace Reaches

variable {text inner rest : List Char} {openings : List Opening}

theorem layout (h : Reaches text inner openings) (hl : Layout inner rest) :
    Reaches text rest openings := by
  cases h with
  | start hl' => exact .start (hl'.trans hl)
  | list h hitems => exact .list h (hitems.layout hl)
  | quote h hl' => exact .quote h (hl'.trans hl)

theorem deliver {d : Datum} (h : Reaches text inner openings) (hd : Datum.Written inner d rest) :
    (Opening.deliver openings d).At text rest := by
  induction openings generalizing inner d with
  | nil =>
    cases h with
    | start hl => exact ⟨inner, hl, hd⟩
  | cons opening outer ih =>
    cases h with
    | @list _ _ items _ h hitems =>
      refine Reaches.list h ?_
      rw [List.reverse_cons]
      exact hitems.concat hd
    | quote h hl => exact ih h (.quote hl hd)

/-- A lexeme leads to a further place, or completes the datum. -/
theorem advance {l : Lexeme} {p : Progress} (h : Reaches text inner openings)
    (hn : Lexeme.next inner = .ok (some (l, rest))) (ha : Opening.advance openings l = .ok p) :
    p.At text rest := by
  obtain ⟨inner', hl, hbegins⟩ := Lexeme.exists_begins_of_next hn
  have h' : Reaches text inner' openings := h.layout hl
  cases l with
  | openList =>
    cases ha
    cases hbegins
    exact Reaches.list h' (.nil (.nil rest))
  | quote =>
    cases ha
    cases hbegins
    exact Reaches.quote h' (.nil rest)
  | atom d =>
    cases ha
    exact h'.deliver hbegins
  | closeList =>
    cases hbegins
    rcases openings with _ | ⟨_ | _, outer⟩
    · cases ha
    · cases ha
      cases h' with
      | list h' hitems => exact h'.deliver (.list hitems)
    · cases ha

end Reaches

theorem Opening.offends_atEnd (openings : List Opening) : Offends openings [] (atEnd openings) := by
  by_cases h : ∃ items, list items ∈ openings
  · obtain ⟨items, hitems⟩ := h
    rw [atEnd_eq_unterminatedList hitems]
    exact .endedInList hitems
  · rw [not_exists] at h
    rw [atEnd_eq_unexpectedEnd h]
    exact .ended h

namespace Datum

/-- What the grammar says about the result of reading a text. -/
def Agrees (text : List Char) : Except ReadError (Datum × List Char) → Prop
  | .ok (d, rest) => ∃ text', Layout text text' ∧ Written text' d rest
  | .error e => ∃ rest openings, Reaches text rest openings ∧ Offends openings rest e

/-- A reading that has come to a place ends as the grammar says. -/
theorem agrees_readWithin {text inner : List Char} {openings : List Opening}
    (h : Reaches text inner openings) : Agrees text (readWithin openings inner) := by
  fun_induction readWithin openings inner with
  | case1 openings inner e hn =>
    obtain ⟨inner', hl, hoffends⟩ := Lexeme.exists_offends_of_next hn openings
    exact ⟨inner', openings, h.layout hl, hoffends⟩
  | case2 openings inner hn =>
    have hl : Layout inner [] := Lexeme.next_eq_none_iff.mp hn ▸ layout_skipLayout inner
    exact ⟨[], openings, h.layout hl, Opening.offends_atEnd openings⟩
  | case3 openings inner l rest hn e ha =>
    obtain ⟨rfl, rfl⟩ := Opening.advance_eq_error ha
    obtain ⟨inner', hl, rfl⟩ := Lexeme.exists_begins_of_next hn
    refine ⟨_, openings, h.layout hl, .close ?_⟩
    rintro items outer rfl
    cases ha
  | case4 openings inner l rest hn d ha => exact h.advance hn ha
  | case5 openings inner l rest hn openings' ha ih => exact ih (h.advance hn ha)

/-- The reader and the grammar say the same of every text. -/
theorem read_eq_iff_agrees {text : List Char} {result : Except ReadError (Datum × List Char)} :
    read text = result ↔ Agrees text result := by
  constructor
  · rintro rfl
    exact agrees_readWithin (.start (.nil text))
  · intro h
    cases result with
    | ok found =>
      obtain ⟨text', hl, hd⟩ := h
      rw [read_eq_readWithin_of_reaches (.start hl), readWithin_of_written [] hd]
      rfl
    | error e =>
      obtain ⟨rest, openings, hreaches, hoffends⟩ := h
      rw [read_eq_readWithin_of_reaches hreaches, readWithin_of_offends hoffends]

/-! ## Reading at an offset -/

theorem readAt_byteLength (before text : List Char) :
    readAt (before ++ text) (Text.byteLength before) = some ((read text).map fun (d, rest) ↦
      (d, Text.byteLength (before ++ text) - Text.byteLength rest)) := by
  rw [readAt, Text.splitAt?_byteLength]
  cases text with
  | nil =>
    rw [List.append_nil, if_pos (Nat.le_refl _), read, readWithin_of_next_none rfl]
    rfl
  | cons c text =>
    have hc := c.utf8Size_pos
    rw [if_neg (by rw [Text.byteLength_append, Text.byteLength_cons]; omega)]
    rfl

theorem exists_read_of_readAt {text : List Char} {offset next : Nat} {d : Datum}
    (h : readAt text offset = some (.ok (d, next))) :
    ∃ after rest, read after = .ok (d, rest) := by
  rw [readAt] at h
  split at h
  · cases h
  · obtain ⟨⟨before, after⟩, -, hafter⟩ := Option.map_eq_some_iff.mp h
    obtain ⟨⟨d', rest⟩, hread, hd⟩ := map_eq_ok_iff.mp hafter
    cases hd
    exact ⟨after, rest, hread⟩

/-- **The reader accepts exactly the grammar.** At a character boundary there is always a result. It
is a datum and the offset behind it if and only if what lies in between is layout and the datum
written, and it is an error if and only if everything in front of some place is in order and the
place offends in this way. -/
theorem readAt_accepts_exactly_the_grammar (before text : List Char) :
    ∃ result, readAt (before ++ text) (Text.byteLength before) = some result ∧
      (∀ d next, result = .ok (d, next) ↔
        ∃ layout word rest, text = layout ++ (word ++ rest) ∧
          Layout text (word ++ rest) ∧ Written (word ++ rest) d rest ∧
          next = Text.byteLength before + Text.byteLength (layout ++ word)) ∧
      ∀ e, result = .error e ↔
        ∃ rest openings, Reaches text rest openings ∧ Offends openings rest e := by
  refine ⟨_, readAt_byteLength before text, fun d next ↦ ?_, fun e ↦ ?_⟩
  · rw [map_eq_ok_iff]
    constructor
    · rintro ⟨⟨d', rest⟩, hread, hnext⟩
      cases hnext
      obtain ⟨text', hl, hd⟩ := read_eq_iff_agrees.mp hread
      obtain ⟨word, rfl⟩ := hd.suffix
      obtain ⟨layout, rfl⟩ := hl.suffix
      refine ⟨layout, word, rest, rfl, hl, hd, ?_⟩
      simp only [Text.byteLength_append]
      omega
    · rintro ⟨layout, word, rest, rfl, hl, hd, rfl⟩
      refine ⟨(d, rest), read_eq_iff_agrees.mpr ⟨_, hl, hd⟩, Prod.ext rfl ?_⟩
      simp only [Text.byteLength_append]
      omega
  · rw [map_eq_error_iff]
    exact read_eq_iff_agrees

end Datum

end LexicalLisp
