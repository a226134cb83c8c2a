import LexicalLisp.Proofs.Reading.Lexeme
import LexicalLisp.Datum.Reader

/-!
# The grammar of data

What a text has to look like for a datum to stand at its beginning, said without a reader. Every
judgement is about a text and what is left of it: names and integers are as long as possible, and a
`#` takes no character with it only at the very end, so that whether a datum is written somewhere
depends on what is behind it.

* `Layout text rest`: between the beginning of the text and the rest there is only layout.
* `Datum.Written text d rest`: the text begins with `d`, and the rest is behind it.
* `Datum.AllWritten text ds rest`: the text begins with the data `ds` and layout around them.

For a text that begins with no datum there is a first place that is to blame. `Reaches` says which
places of a text can be come to with everything in front of them in order, and what is open there;
`Offends` says what is wrong at a place, by what is open.
-/

namespace LexicalLisp

/-! ## Runs of characters -/

namespace Text

/-- The text does not begin with a character of the class. -/
def Stops (p : Char → Bool) (text : List Char) : Prop := ∀ c ∈ text.head?, p c = false

variable {p : Char → Bool} {run rest : List Char}

theorem stops_nil : Stops p [] := nofun

theorem stops_cons {c : Char} : Stops p (c :: rest) ↔ p c = false := by
  simp [Stops]

theorem Stops.mono {q : Char → Bool} (h : Stops p rest)
    (hqp : ∀ c, q c = true → p c = true) : Stops q rest := by
  intro c hc
  cases hq : q c with
  | false => rfl
  | true => exact absurd (hqp c hq) (by simp [h c hc])

theorem Stops.of_prefix {rest' : List Char} (h : Stops p rest) (hrest : rest' <+: rest) :
    Stops p rest' := by
  obtain ⟨tail, rfl⟩ := hrest
  intro c hc
  exact h c (by rw [List.head?_append, Option.mem_def.mp hc]; rfl)

theorem stops_dropWhile (text : List Char) : Stops p (text.dropWhile p) := by
  intro c hc
  simpa [Option.mem_def.mp hc] using List.head?_dropWhile_not p text

/-- A run that is as long as possible is the one that is taken. -/
theorem takeWhile_append_of_stops (hrun : ∀ c ∈ run, p c = true) (hrest : Stops p rest) :
    (run ++ rest).takeWhile p = run := by
  rw [List.takeWhile_append_of_pos hrun]
  cases rest with
  | nil => simp
  | cons c rest => simp [stops_cons.mp hrest]

theorem dropWhile_append_of_stops (hrun : ∀ c ∈ run, p c = true) (hrest : Stops p rest) :
    (run ++ rest).dropWhile p = rest := by
  rw [List.dropWhile_append_of_pos hrun]
  cases rest with
  | nil => rfl
  | cons c rest => simp [stops_cons.mp hrest]

/-- A word that can be a name: not empty, of name characters only, and without a digit, a `#` or a
quote mark at its beginning. -/
def IsName (word : List Char) : Prop :=
  word ≠ [] ∧ (∀ c ∈ word, isNameChar c = true) ∧
    ∀ c ∈ word.head?, c.isDigit = false ∧ c ≠ '#' ∧ c ≠ quoteMark

instance (word : List Char) : Decidable (IsName word) :=
  -- decided by going through the word and not through all characters
  have : Decidable (∀ c ∈ word, isNameChar c = true) := List.decidableBAll _ word
  have : Decidable (∀ c ∈ word.head?, c.isDigit = false ∧ c ≠ '#' ∧ c ≠ quoteMark) :=
    Option.decidableForallMem _
  inferInstanceAs (Decidable (_ ∧ _ ∧ _))

end Text

/-! ## Layout -/

/-- The text begins with layout, and the rest is behind it. A comment goes on to a line feed or to
the end of the text. -/
inductive Layout : List Char → List Char → Prop
  | nil (rest : List Char) : Layout rest rest
  | space {c : Char} {text rest : List Char} (hc : Text.isSpace c = true)
    (h : Layout text rest) : Layout (c :: text) rest
  | comment {words text rest : List Char} (hwords : '\n' ∉ words) (h : Layout text rest) :
    Layout (';' :: (words ++ '\n' :: text)) rest
  | lastComment {words : List Char} (hwords : '\n' ∉ words) : Layout (';' :: words) []

/-! ## Data -/

namespace Datum

mutual

/-- The text begins with a datum, and the rest is behind it. -/
inductive Written : List Char → Datum → List Char → Prop
  | integer {digits rest : List Char} {value : Fixnum} (hne : digits ≠ [])
    (hdigits : ∀ c ∈ digits, c.isDigit = true) (hrest : Text.Stops Char.isDigit rest)
    (hvalue : value.val = Nat.ofDigitChars 10 digits 0) :
    Written (digits ++ rest) (.integer value) rest
  | bool (c : Char) (rest : List Char) : Written ('#' :: c :: rest) (.bool (c == 't')) rest
  | boolAtEnd : Written ['#'] (.bool false) []
  | symbol {word rest : List Char} (hword : Text.IsName word)
    (hrest : Text.Stops Text.isNameChar rest) :
    Written (word ++ rest) (.symbol (String.ofList word)) rest
  | quote {text text' rest : List Char} {d : Datum} (hl : Layout text text')
    (h : Written text' d rest) : Written (Text.quoteMark :: text) (.quote d) rest
  | list {text rest : List Char} {items : List Datum} (h : AllWritten text items (')' :: rest)) :
    Written ('(' :: text) (.list items) rest

/-- The text begins with data and layout in front of them, between them and behind them. -/
inductive AllWritten : List Char → List Datum → List Char → Prop
  | nil {text rest : List Char} (hl : Layout text rest) : AllWritten text [] rest
  | cons {text text' text'' rest : List Char} {d : Datum} {ds : List Datum}
    (hl : Layout text text') (hd : Written text' d text'') (h : AllWritten text'' ds rest) :
    AllWritten text (d :: ds) rest

end

end Datum

/-! ## Places -/

/-- Everything in front of the rest of the text is in order and part of one datum. What is open
there is listed with the innermost opening first. -/
inductive Reaches (text : List Char) : List Char → List Opening → Prop
  | start {rest : List Char} (hl : Layout text rest) : Reaches text rest []
  | list {inner rest : List Char} {items : List Datum} {outer : List Opening}
    (h : Reaches text ('(' :: inner) outer) (hitems : Datum.AllWritten inner items.reverse rest) :
    Reaches text rest (.list items :: outer)
  | quote {inner rest : List Char} {outer : List Opening}
    (h : Reaches text (Text.quoteMark :: inner) outer) (hl : Layout inner rest) :
    Reaches text rest (.quote :: outer)

/-- No datum begins at a place where this is open, nor does a list end there. -/
inductive Offends (openings : List Opening) : List Char → ReadError → Prop
  /-- The text ended, and no list is open. -/
  | ended (h : ∀ items, .list items ∉ openings) : Offends openings [] .unexpectedEnd
  /-- The text ended, and a list is open. -/
  | endedInList {items : List Datum} (h : .list items ∈ openings) :
    Offends openings [] .unterminatedList
  /-- A parenthesis closes a list, but a datum must begin here. -/
  | close {rest : List Char} (h : ∀ items outer, openings ≠ .list items :: outer) :
    Offends openings (')' :: rest) (.unexpectedChar ')')
  /-- A brace. -/
  | brace {c : Char} {rest : List Char} (h : c = '{' ∨ c = '}') :
    Offends openings (c :: rest) (.unexpectedChar c)
  /-- A run of digits, as long as possible, denotes an integer out of range. -/
  | digits {digits rest : List Char} (hne : digits ≠ [])
    (hdigits : ∀ c ∈ digits, c.isDigit = true) (hrest : Text.Stops Char.isDigit rest)
    (hvalue : 9223372036854775807 < Nat.ofDigitChars 10 digits 0) :
    Offends openings (digits ++ rest) (.integerOverflow (String.ofList digits))

/-! ## The rest is a part of the text

A judgement about a text and what is left of it depends on what is left only as far as it has to end
there. So it holds as well of a text that stops earlier in the rest, and most of all of the part of
the text in front of the rest, with nothing left. -/

/-- The text is a word and the rest behind it, and the judgement holds of the word with any
beginning of the rest behind it. -/
def Takes (judgement : List Char → List Char → Prop) (text rest : List Char) : Prop :=
  ∃ word, text = word ++ rest ∧ ∀ rest', rest' <+: rest → judgement (word ++ rest') rest'

section Takes

variable {judgement first second both : List Char → List Char → Prop}
  {text middle rest : List Char}

theorem Takes.suffix (h : Takes judgement text rest) : rest <:+ text := by
  obtain ⟨word, rfl, -⟩ := h
  exact List.suffix_append word rest

theorem Takes.nothing (h : ∀ rest, judgement rest rest) (rest : List Char) :
    Takes judgement rest rest :=
  ⟨[], rfl, fun rest' _ ↦ h rest'⟩

theorem Takes.cons {c : Char}
    (h : Takes (fun text rest ↦ judgement (c :: text) rest) text rest) :
    Takes judgement (c :: text) rest := by
  obtain ⟨word, rfl, htake⟩ := h
  exact ⟨c :: word, rfl, htake⟩

theorem Takes.trans (h₁ : Takes first text middle) (h₂ : Takes second middle rest)
    (hboth : ∀ {text middle rest}, first text middle → second middle rest → both text rest) :
    Takes both text rest := by
  obtain ⟨word₁, rfl, htake₁⟩ := h₁
  obtain ⟨word₂, rfl, htake₂⟩ := h₂
  refine ⟨word₁ ++ word₂, (List.append_assoc ..).symm, fun rest' hrest ↦ ?_⟩
  rw [List.append_assoc]
  exact hboth (htake₁ _ ((List.prefix_append_right_inj word₂).mpr hrest)) (htake₂ rest' hrest)

end Takes

theorem Layout.trans {text text' rest : List Char} (h : Layout text text')
    (h' : Layout text' rest) : Layout text rest := by
  induction h with
  | nil => exact h'
  | space hc _ ih => exact .space hc (ih h')
  | comment hwords _ ih => exact .comment hwords (ih h')
  | lastComment hwords =>
    -- nothing but the end is behind the last comment
    cases h'
    exact .lastComment hwords

theorem Layout.takes {text rest : List Char} (h : Layout text rest) : Takes Layout text rest := by
  induction h with
  | nil rest => exact .nothing .nil rest
  | @space c text rest hc _ ih =>
    have hspace : Takes Layout (c :: text) text := ⟨[c], rfl, fun rest' _ ↦ .space hc (.nil rest')⟩
    exact hspace.trans ih .trans
  | @comment words text rest hwords _ ih =>
    have hcomment : Takes Layout (';' :: (words ++ '\n' :: text)) text := by
      refine ⟨';' :: (words ++ ['\n']), by simp, fun rest' _ ↦ ?_⟩
      rw [List.cons_append, List.append_assoc, List.singleton_append]
      exact .comment hwords (.nil rest')
    exact hcomment.trans ih .trans
  | @lastComment words hwords =>
    refine ⟨';' :: words, (List.append_nil _).symm, fun rest' hrest ↦ ?_⟩
    rw [List.prefix_nil.mp hrest, List.append_nil]
    exact .lastComment hwords

theorem Layout.suffix {text rest : List Char} (h : Layout text rest) : rest <:+ text :=
  h.takes.suffix

namespace Datum

mutual

theorem Written.takes :
    ∀ {text : List Char} {d : Datum} {rest : List Char}, Written text d rest →
      Takes (Written · d) text rest
  | _, _, _, .integer hne hdigits hrest hvalue =>
    ⟨_, rfl, fun _ h ↦ .integer hne hdigits (hrest.of_prefix h) hvalue⟩
  | _, _, _, .bool c rest => ⟨['#', c], rfl, fun rest' _ ↦ .bool c rest'⟩
  | _, _, _, .boolAtEnd => by
    refine ⟨['#'], rfl, fun rest' hrest ↦ ?_⟩
    rw [List.prefix_nil.mp hrest]
    exact .boolAtEnd
  | _, _, _, .symbol hword hrest => ⟨_, rfl, fun _ h ↦ .symbol hword (hrest.of_prefix h)⟩
  | _, _, _, .quote hl h => (hl.takes.trans h.takes fun hl h ↦ Written.quote hl h).cons
  | _, _, rest, .list h => by
    have hclose : Takes (fun text rest ↦ text = ')' :: rest) (')' :: rest) rest :=
      ⟨[')'], rfl, fun _ _ ↦ rfl⟩
    exact (h.takes.trans hclose fun h heq ↦ Written.list (heq ▸ h)).cons

theorem AllWritten.takes :
    ∀ {text : List Char} {ds : List Datum} {rest : List Char}, AllWritten text ds rest →
      Takes (AllWritten · ds) text rest
  | _, _, _, .nil hl => by
    obtain ⟨word, htext, htake⟩ := hl.takes
    exact ⟨word, htext, fun rest' hrest ↦ .nil (htake rest' hrest)⟩
  | _, d :: ds, _, .cons hl hd h => by
    have hdata : Takes (fun text rest ↦ ∃ middle, Written text d middle ∧
      AllWritten middle ds rest) _ _ := hd.takes.trans h.takes fun hd h ↦ ⟨_, hd, h⟩
    exact hl.takes.trans hdata fun hl ⟨_, hd, h⟩ ↦ .cons hl hd h

end

theorem Written.suffix {text rest : List Char} {d : Datum} (h : Written text d rest) :
    rest <:+ text :=
  h.takes.suffix

end Datum

/-! ## Layout is what is skipped -/

private theorem skipComment_eq_nil {words : List Char} (h : '\n' ∉ words) :
    skipComment words = [] := by
  induction words with
  | nil => rfl
  | cons c words ih =>
    rw [List.mem_cons, not_or] at h
    rw [skipComment, if_neg (by simpa using Ne.symm h.1), ih h.2]

private theorem skipLayout_comment (words : List Char) :
    skipLayout (';' :: words) = skipComment words := by
  rw [skipLayout, if_neg (by decide), if_pos (by decide)]

theorem Layout.skipLayout_eq {text rest : List Char} (h : Layout text rest) :
    skipLayout text = skipLayout rest := by
  induction h with
  | nil => rfl
  | space hc _ ih => rw [skipLayout, if_pos hc, ih]
  | @comment words text rest hwords _ ih =>
    have hskip : skipLayout (';' :: words) = [] := by
      rw [skipLayout_comment, skipComment_eq_nil hwords]
    rw [← List.cons_append, skipLayout_append_newline text hskip, ih]
  | lastComment hwords =>
    rw [skipLayout_comment, skipComment_eq_nil hwords]
    rfl

mutual

theorem layout_skipLayout : ∀ text : List Char, Layout text (skipLayout text)
  | [] => .nil []
  | c :: text => by
    rw [skipLayout]
    split
    next hs => exact .space hs (layout_skipLayout text)
    next =>
      split
      next hc =>
        rw [beq_iff_eq.mp hc, ← List.nil_append text]
        exact layout_skipComment List.not_mem_nil text
      next => exact .nil _

private theorem layout_skipComment {words : List Char} (hwords : '\n' ∉ words) :
    ∀ text : List Char, Layout (';' :: (words ++ text)) (skipComment text)
  | [] => by
    rw [List.append_nil]
    exact .lastComment hwords
  | c :: text => by
    rw [skipComment]
    split
    next hc =>
      rw [beq_iff_eq.mp hc]
      exact .comment hwords (layout_skipLayout text)
    next hc =>
      have hmore : '\n' ∉ words ++ [c] := by
        rw [List.mem_append, List.mem_singleton, not_or]
        exact ⟨hwords, fun heq ↦ hc (beq_iff_eq.mpr heq.symm)⟩
      have h := layout_skipComment hmore text
      rwa [List.append_assoc, List.singleton_append] at h

end

mutual

theorem not_layout_of_skipLayout {c : Char} {rest : List Char} :
    ∀ {text : List Char}, skipLayout text = c :: rest → Text.isSpace c = false ∧ c ≠ ';'
  | a :: text, h => by
    rw [skipLayout] at h
    split at h
    next => exact not_layout_of_skipLayout h
    next hs =>
      split at h
      next => exact not_layout_of_skipComment h
      next hc =>
        cases h
        exact ⟨Bool.not_eq_true _ ▸ hs, fun heq ↦ hc (beq_iff_eq.mpr heq)⟩

private theorem not_layout_of_skipComment {c : Char} {rest : List Char} :
    ∀ {text : List Char}, skipComment text = c :: rest → Text.isSpace c = false ∧ c ≠ ';'
  | a :: text, h => by
    rw [skipComment] at h
    split at h
    next => exact not_layout_of_skipLayout h
    next => exact not_layout_of_skipComment h

end

theorem skipLayout_eq_self {c : Char} {rest : List Char} (hs : Text.isSpace c = false)
    (hc : c ≠ ';') : skipLayout (c :: rest) = c :: rest := by
  rw [skipLayout, if_neg (by simp [hs]), if_neg (by simpa using hc)]

end LexicalLisp
