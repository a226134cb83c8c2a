import LexicalLisp.Datum.Printer
import LexicalLisp.Proofs.Reading.Acceptance

/-!
# Reading what was printed

The reader gives only data whose text it can read again: their integers are not negative, and their
names are words that a name can be (`Datum.Readable`). And every such datum is read from its text,
with the text behind it left over, as long as that begins with a space or a delimiter or is empty
(`Datum.readAt_render_append`). Without this a name or an integer at the end of the text of the
datum would grow.

Both facts are about the grammar alone. What is written is readable, by induction on how it is
written, and the text of a readable datum is one way to write it, by induction on the datum.
-/

namespace LexicalLisp.Datum

/-- The data that can be read: no integer is negative, and every symbol is a name. -/
inductive Readable : Datum → Prop
  | list {items : List Datum} (h : ∀ d ∈ items, Readable d) : Readable (.list items)
  | symbol {name : String} (h : Text.IsName name.toList) : Readable (.symbol name)
  | integer {value : Fixnum} (h : 0 ≤ value.val) : Readable (.integer value)
  | bool (value : Bool) : Readable (.bool value)
  | quote {inner : Datum} (h : Readable inner) : Readable (.quote inner)

/-! ## What is written is readable -/

mutual

theorem Written.readable :
    ∀ {text : List Char} {d : Datum} {rest : List Char}, Written text d rest → d.Readable
  | _, _, _, .integer _ _ _ hvalue => .integer (hvalue ▸ Int.natCast_nonneg _)
  | _, _, _, .bool c rest => .bool (c == 't')
  | _, _, _, .boolAtEnd => .bool false
  | _, _, _, .symbol hword _ => .symbol (by rwa [String.toList_ofList])
  | _, _, _, .quote _ h => .quote h.readable
  | _, _, _, .list h => .list h.readable

theorem AllWritten.readable :
    ∀ {text : List Char} {ds : List Datum} {rest : List Char}, AllWritten text ds rest →
      ∀ d ∈ ds, d.Readable
  | _, _, _, .nil _ => nofun
  | _, _, _, .cons _ hd h => List.forall_mem_cons.mpr ⟨hd.readable, h.readable⟩

end

/-! ## What is readable is written in its text -/

theorem AllWritten.of_layout {text text' rest : List Char} {ds : List Datum}
    (hl : Layout text text') (h : AllWritten text' ds rest) : AllWritten text ds rest := by
  cases h with
  | nil hl' => exact .nil (hl.trans hl')
  | cons hl' hd h => exact .cons (hl.trans hl') hd h

private theorem chars_of_nonneg {value : Fixnum} (h : 0 ≤ value.val) :
    value.chars = Nat.toDigits 10 value.val.toNat := by
  obtain ⟨n, hn⟩ := Int.eq_ofNat_of_zero_le h
  rw [Fixnum.chars, hn]
  rfl

/-- The separators between items are layout, and just enough of it. -/
theorem allWritten_charsSpaced {items : List Datum} (rest : List Char)
    (h : ∀ d ∈ items, ∀ rest, Text.Stops Text.isNameChar rest → Written (d.chars ++ rest) d rest) :
    AllWritten (charsSpaced items ++ ')' :: rest) items (')' :: rest) := by
  induction items with
  | nil => exact .nil (.nil _)
  | cons d items ih =>
    rw [List.forall_mem_cons] at h
    cases items with
    | nil =>
      have hd := h.1 (')' :: rest) (Text.stops_cons.mpr (by decide))
      exact .cons (.nil _) hd (.nil (.nil _))
    | cons d' items =>
      rw [charsSpaced_cons_cons, List.append_assoc, List.cons_append]
      have hd := h.1 (' ' :: (charsSpaced (d' :: items) ++ ')' :: rest))
        (Text.stops_cons.mpr (by decide))
      have hspace : Layout (' ' :: (charsSpaced (d' :: items) ++ ')' :: rest)) _ :=
        .space (by decide) (.nil _)
      exact .cons (.nil _) hd (.of_layout hspace (ih h.2))

theorem Readable.written {d : Datum} (h : d.Readable) {rest : List Char}
    (hrest : Text.Stops Text.isNameChar rest) : Written (d.chars ++ rest) d rest := by
  induction d generalizing rest with
  | list items ih =>
    cases h with
    | list h =>
      rw [chars, List.cons_append, List.append_assoc, List.singleton_append]
      exact .list (allWritten_charsSpaced rest fun d hd rest hrest ↦ ih d hd (h d hd) hrest)
  | symbol name =>
    cases h with
    | symbol h =>
      have hwritten := Written.symbol h hrest
      rwa [String.ofList_toList] at hwritten
  | integer value =>
    cases h with
    | integer h =>
      rw [chars, chars_of_nonneg h]
      refine .integer Nat.toDigits_ne_nil ?_ (hrest.mono fun _ ↦ Text.isNameChar_of_isDigit) ?_
      · intro c hc
        exact Nat.isDigit_of_mem_toDigits (by decide) (by decide) hc
      · rw [Nat.ofDigitChars_toDigits (by decide) (by decide), Int.toNat_of_nonneg h]
  | bool value => cases value <;> exact .bool _ rest
  | quote inner ih =>
    cases h with
    | quote h => exact .quote (.nil _) (ih h hrest)

/-! ## There and back -/

theorem Readable.read_chars {d : Datum} (h : d.Readable) {rest : List Char}
    (hrest : Text.Stops Text.isNameChar rest) : read (d.chars ++ rest) = .ok (d, rest) :=
  read_eq_iff_agrees.mpr ⟨_, .nil _, h.written hrest⟩

theorem readable_of_read {text rest : List Char} {d : Datum} (h : read text = .ok (d, rest)) :
    d.Readable := by
  obtain ⟨text', -, hd⟩ := read_eq_iff_agrees.mp h
  exact hd.readable

theorem readable_of_readAt {text : List Char} {offset next : Nat} {d : Datum}
    (h : readAt text offset = some (.ok (d, next))) : d.Readable := by
  obtain ⟨after, rest, hread⟩ := exists_read_of_readAt h
  exact readable_of_read hread

theorem readable_of_mem_items {text : List Char} {d : Datum} (h : .ok d ∈ items text) :
    d.Readable := by
  induction text using reading_induction with
  | layout text hskip =>
    rw [items_of_layout hskip] at h
    cases h
  | error text e hskip hread =>
    rw [items_of_read_error hskip hread] at h
    cases List.mem_singleton.mp h
  | datum text d' rest hread ih =>
    rw [items_of_read hread] at h
    rcases List.mem_cons.mp h with heq | h
    · cases heq
      exact readable_of_read hread
    · exact ih h

/-- **Printing and reading.** Whatever is read is readable, and whatever is readable is read from
its text, in front of everything that does not go on with a name character. -/
theorem readAt_render_append :
    (∀ text offset d next, readAt text offset = some (.ok (d, next)) → d.Readable) ∧
      ∀ d : Datum, d.Readable → ∀ rest : List Char,
        (∀ c ∈ rest.head?, Text.isSpace c = true ∨ Text.isDelimiter c = true) →
        readAt (d.render.toList ++ rest) 0 = some (.ok (d, d.render.utf8ByteSize)) := by
  refine ⟨fun text offset d next ↦ readable_of_readAt, fun d hd rest hrest ↦ ?_⟩
  have hstops : Text.Stops Text.isNameChar rest := by
    intro c hc
    exact Text.isNameChar_eq_false_iff.mpr (hrest c hc)
  have hread := hd.read_chars hstops
  rw [← List.nil_append (d.render.toList ++ rest), ← Text.byteLength_nil, readAt_byteLength,
    ← Text.byteLength_toList]
  rw [render, String.toList_ofList, hread]
  simp [Except.map]

/-- A name that goes on after a quote mark, and an integer at the very end in front of a comment. -/
theorem readAt_render_append_in_front_of_comment :
    let d := list [symbol "it's", quote (list [bool false, integer ⟨12, by decide, by decide⟩])]
    d.Readable ∧ readAt "(it's '(#f 12));".toList 0 = some (.ok (d, 15)) := by
  intro d
  have hname : Readable (symbol "it's") := .symbol (by decide)
  have hitems : ∀ d ∈ [bool false, integer ⟨12, by decide, by decide⟩], Readable d :=
    List.forall_mem_cons.mpr ⟨.bool false, List.forall_mem_singleton.mpr (.integer (by decide))⟩
  have hd : d.Readable := .list (List.forall_mem_cons.mpr
    ⟨hname, List.forall_mem_singleton.mpr (.quote (.list hitems))⟩)
  have hcomment : ∀ c ∈ ";".toList.head?, Text.isSpace c = true ∨ Text.isDelimiter c = true := by
    intro c hc
    cases hc
    exact .inr rfl
  have hread := readAt_render_append.2 d hd ";".toList hcomment
  rw [show d.render = "(it's '(#f 12))" by cbv] at hread
  exact ⟨hd, hread⟩

end LexicalLisp.Datum
