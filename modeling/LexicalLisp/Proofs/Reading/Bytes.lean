import LexicalLisp.Proofs.Reading.Acceptance

/-!
# Reading by bytes

The offsets of a text count the bytes of its UTF-8 form. This file reads a text as such a sequence:
the scan for the next lexeme and for its end looks at one byte after another and knows no
characters, and the text between two offsets is taken out only when the lexeme has been delimited.
That fails where an offset is inside a character, and with it the whole reading.

It fails only where the first offset is, and otherwise finds what the reader finds on the text as a
list of characters (`Datum.scanAt_eq_readAt`). The reason is that no byte of a character beyond
ASCII is an ASCII character itself (`Text.le_of_mem_octets`). So all classes of characters say the
same of a character and of each of its bytes, a run of bytes is the bytes of a run of characters,
and a lexeme that begins at a boundary ends at one.
-/

namespace LexicalLisp

/-! ## Boundaries -/

namespace Text

variable {text before after : List Char} {offset : Nat}

/-- The offset is a position of the text as a string: a character begins there, or the text ends. -/
def IsBoundary (text : List Char) (offset : Nat) : Prop :=
  String.Pos.Raw.IsValid (String.ofList text) ⟨offset⟩

theorem isBoundary_iff : IsBoundary text offset ↔
    ∃ before after, text = before ++ after ∧ byteLength before = offset := by
  rw [IsBoundary, String.Pos.Raw.isValid_iff_exists_take_toList]
  simp only [← byteLength_toList, String.toList_ofList]
  constructor
  · rintro ⟨count, hcount⟩
    exact ⟨text.take count, text.drop count, (List.take_append_drop count text).symm, hcount.symm⟩
  · rintro ⟨before, after, rfl, rfl⟩
    exact ⟨before.length, by rw [List.take_left]⟩

theorem splitAt?_eq_none_iff : splitAt? offset text = none ↔ ¬IsBoundary text offset := by
  rw [isBoundary_iff, Option.eq_none_iff_forall_ne_some]
  constructor
  · rintro h ⟨before, after, hsplit⟩
    exact h (before, after) (splitAt?_eq_some_iff.mpr hsplit)
  · rintro h ⟨before, after⟩ hsplit
    exact h ⟨before, after, splitAt?_eq_some_iff.mp hsplit⟩

theorem exists_of_not_isBoundary (hlt : offset < byteLength text) (h : ¬IsBoundary text offset) :
    ∃ before c after, text = before ++ c :: after ∧ byteLength before < offset ∧
      offset < byteLength before + c.utf8Size := by
  induction text generalizing offset with
  | nil => exact absurd hlt (Nat.not_lt_zero _)
  | cons c text ih =>
    rw [byteLength_cons] at hlt
    have hzero : 0 < offset := by
      rw [Nat.pos_iff_ne_zero]
      rintro rfl
      exact h (isBoundary_iff.mpr ⟨[], c :: text, rfl, rfl⟩)
    rcases Nat.lt_or_ge offset c.utf8Size with hinside | hbehind
    · exact ⟨[], c, text, rfl, hzero, by rwa [byteLength_nil, Nat.zero_add]⟩
    · obtain ⟨offset, rfl⟩ := Nat.exists_eq_add_of_le hbehind
      have hrest : ¬IsBoundary text offset := by
        rw [isBoundary_iff]
        rintro ⟨before, after, rfl, rfl⟩
        exact h (isBoundary_iff.mpr ⟨c :: before, after, rfl, rfl⟩)
      obtain ⟨before, a, after, rfl, hbefore, hafter⟩ := ih (Nat.lt_of_add_lt_add_left hlt) hrest
      refine ⟨c :: before, a, after, rfl, Nat.add_lt_add_left hbefore _, ?_⟩
      rw [byteLength_cons, Nat.add_assoc]
      exact Nat.add_lt_add_left hafter _

theorem not_isBoundary_of_inside {before after : List Char} {c : Char}
    (hbefore : byteLength before < offset) (hafter : offset < byteLength before + c.utf8Size) :
    ¬IsBoundary (before ++ c :: after) offset := by
  rw [isBoundary_iff]
  rintro ⟨front, back, hsplit, rfl⟩
  rcases List.append_eq_append_iff.mp hsplit with ⟨between, rfl, hbetween⟩ | ⟨between, rfl, -⟩
  · rw [byteLength_append] at hbefore hafter
    cases between with
    | nil => exact Nat.lt_irrefl _ hbefore
    | cons d between =>
      obtain ⟨rfl, -⟩ := List.cons.inj hbetween
      rw [byteLength_cons] at hafter
      omega
  · rw [byteLength_append] at hbefore
    omega

/-- The text between two byte offsets, if both are boundaries in this order. -/
def slice? (first last : Nat) (text : List Char) : Option (List Char) :=
  (splitAt? last text).bind fun (front, _) ↦ (splitAt? first front).map Prod.snd

theorem slice?_byteLength (before word after : List Char) :
    slice? (byteLength before) (byteLength before + byteLength word) (before ++ (word ++ after)) =
      some word := by
  rw [slice?, ← byteLength_append, ← List.append_assoc, splitAt?_byteLength]
  exact congrArg (Option.map Prod.snd) (splitAt?_byteLength before word)

theorem slice?_eq_none (h : ¬IsBoundary text offset) (last : Nat) :
    slice? offset last text = none := by
  rw [slice?, Option.bind_eq_none_iff]
  rintro ⟨front, back⟩ hlast
  obtain ⟨rfl, -⟩ := splitAt?_eq_some_iff.mp hlast
  rw [Option.map_eq_none_iff, splitAt?_eq_none_iff, isBoundary_iff]
  rintro ⟨before, after, rfl, rfl⟩
  exact h (isBoundary_iff.mpr ⟨before, after ++ back, List.append_assoc .., rfl⟩)

/-- The result of a reading, with the offset of what is left in place of what is left. -/
def located {α ε : Type} (text : List Char) (result : Except ε (α × List Char)) :
    Except ε (α × Nat) :=
  result.map fun (a, rest) ↦ (a, byteLength text - byteLength rest)

theorem located_append_map {α ε : Type} (before word rest : List Char) (result : Except ε α) :
    located (before ++ (word ++ rest)) (result.map (·, rest)) =
      result.map (·, byteLength before + byteLength word) := by
  cases result with
  | error e => rfl
  | ok a =>
    refine congrArg (fun last ↦ Except.ok (a, last)) ?_
    rw [byteLength_append, byteLength_append, ← Nat.add_assoc, Nat.add_sub_cancel]

theorem located_append {α ε : Type} (before word rest : List Char) (a : α) :
    located (before ++ (word ++ rest)) (.ok (a, rest) : Except ε (α × List Char)) =
      .ok (a, byteLength before + byteLength word) :=
  located_append_map before word rest (.ok a)

/-! ## Bytes -/

/-- The bytes of a character in UTF-8, each as the character of this number. -/
def octets (c : Char) : List Char := (String.utf8EncodeChar c).map Char.ofUInt8

/-- The bytes of a text in UTF-8, each as the character of this number. -/
def bytewise (text : List Char) : List Char := text.flatMap octets

variable {c b : Char} {p : Char → Bool}

@[simp] theorem length_octets (c : Char) : (octets c).length = c.utf8Size := by
  rw [octets, List.length_map, String.length_utf8EncodeChar]

theorem exists_octets_eq_cons (c : Char) : ∃ b bs, octets c = b :: bs := by
  refine List.exists_cons_of_ne_nil (List.ne_nil_of_length_pos ?_)
  rw [length_octets]
  exact c.utf8Size_pos

theorem bytewise_append (first second : List Char) :
    bytewise (first ++ second) = bytewise first ++ bytewise second :=
  List.flatMap_append

theorem bytewise_cons (c : Char) (text : List Char) :
    bytewise (c :: text) = octets c ++ bytewise text :=
  List.flatMap_cons

@[simp] theorem length_bytewise (text : List Char) :
    (bytewise text).length = byteLength text := by
  induction text with
  | nil => rfl
  | cons c text ih => rw [bytewise_cons, List.length_append, length_octets, ih, byteLength_cons]

theorem drop_bytewise (before after : List Char) :
    (bytewise (before ++ after)).drop (byteLength before) = bytewise after := by
  rw [bytewise_append, ← length_bytewise, List.drop_left]

theorem toNat_ofUInt8 (byte : UInt8) : (Char.ofUInt8 byte).toNat = byte.toNat := rfl

theorem octets_of_lt (h : c.toNat < 128) : octets c = [c] := by
  have hle : c.val.toNat ≤ 127 := Nat.le_of_lt_succ h
  rw [octets, String.utf8EncodeChar.eq_1, if_pos hle]
  refine congrArg (fun c ↦ [c]) (Char.toNat_inj.mp ?_)
  rw [toNat_ofUInt8, UInt8.toNat_ofNat_of_lt' (Nat.lt_of_le_of_lt hle (by decide))]
  rfl

theorem le_of_mem_octets (h : 128 ≤ c.toNat) (hb : b ∈ octets c) : 128 ≤ b.toNat := by
  obtain ⟨byte, hbyte, rfl⟩ := List.mem_map.mp hb
  rw [toNat_ofUInt8]
  have hwide : ¬c.val.toNat ≤ 127 := Nat.not_le.mpr h
  have hofNat : ∀ n, 128 ≤ n → n < 256 → 128 ≤ (UInt8.ofNat n).toNat := by
    intro n hn hlt
    rwa [UInt8.toNat_ofNat_of_lt' hlt]
  rw [String.utf8EncodeChar.eq_1, if_neg hwide] at hbyte
  -- the encodings in two, three and four bytes
  split at hbyte
  · simp only [List.mem_cons, List.not_mem_nil, or_false] at hbyte
    rcases hbyte with rfl | rfl <;> exact hofNat _ (by omega) (by omega)
  split at hbyte
  · simp only [List.mem_cons, List.not_mem_nil, or_false] at hbyte
    rcases hbyte with rfl | rfl | rfl <;> exact hofNat _ (by omega) (by omega)
  · simp only [List.mem_cons, List.not_mem_nil, or_false] at hbyte
    rcases hbyte with rfl | rfl | rfl | rfl <;> exact hofNat _ (by omega) (by omega)

theorem le_of_one_lt_utf8Size (h : 1 < c.utf8Size) : 128 ≤ c.toNat := by
  refine Nat.le_of_not_lt fun hlt ↦ ?_
  have hlength := length_octets c
  rw [octets_of_lt hlt, List.length_singleton] at hlength
  exact absurd h (hlength ▸ Nat.lt_irrefl _)

/-- What begins inside a character begins with a byte beyond ASCII. -/
theorem exists_drop_bytewise (hlt : offset < byteLength text) (h : ¬IsBoundary text offset) :
    ∃ b bytes, (bytewise text).drop offset = b :: bytes ∧ 128 ≤ b.toNat := by
  obtain ⟨before, c, after, rfl, hbefore, hafter⟩ := exists_of_not_isBoundary hlt h
  obtain ⟨count, rfl⟩ := Nat.exists_eq_add_of_le (Nat.le_of_lt hbefore)
  have hcount : count < (octets c).length := by
    rw [length_octets]
    omega
  refine ⟨(octets c)[count], (octets c).drop (count + 1) ++ bytewise after, ?_,
    le_of_mem_octets (le_of_one_lt_utf8Size (by omega)) (List.getElem_mem hcount)⟩
  rw [← List.drop_drop, drop_bytewise, bytewise_cons,
    List.drop_append_of_le_length (Nat.le_of_lt hcount), List.drop_eq_getElem_cons hcount,
    List.cons_append]

/-! ## Classes of characters and bytes -/

/-- The class does not tell characters beyond ASCII apart. -/
def Coarse (p : Char → Bool) : Prop := ∀ ⦃c c'⦄, 128 ≤ c.toNat → 128 ≤ c'.toNat → p c = p c'

theorem eq_false_of_lt (h : ∀ c, p c = true → c.toNat < 128) (hc : 128 ≤ c.toNat) :
    p c = false := by
  rw [← Bool.not_eq_true]
  exact fun hp ↦ absurd (h c hp) (Nat.not_lt.mpr hc)

theorem coarse_of_lt (h : ∀ c, p c = true → c.toNat < 128) : Coarse p := by
  intro c c' hc hc'
  rw [eq_false_of_lt h hc, eq_false_of_lt h hc']

theorem toNat_lt_of_isSpace (c : Char) (h : isSpace c = true) : c.toNat < 128 := by
  simp only [isSpace, Bool.or_eq_true, beq_iff_eq] at h
  rcases h with (((rfl | rfl) | rfl) | rfl) | rfl <;> decide

theorem toNat_lt_of_isDelimiter (c : Char) (h : isDelimiter c = true) : c.toNat < 128 := by
  simp only [isDelimiter, Bool.or_eq_true, beq_iff_eq] at h
  rcases h with (((rfl | rfl) | rfl) | rfl) | rfl <;> decide

theorem toNat_lt_of_isDigit (c : Char) (h : c.isDigit = true) : c.toNat < 128 :=
  Nat.lt_of_le_of_lt (Char.isDigit_iff_toNat.mp h).2 (by decide)

theorem isNameChar_of_le (h : 128 ≤ c.toNat) : isNameChar c = true := by
  rw [isNameChar, eq_false_of_lt toNat_lt_of_isSpace h, eq_false_of_lt toNat_lt_of_isDelimiter h]
  rfl

theorem coarse_isDigit : Coarse Char.isDigit := coarse_of_lt toNat_lt_of_isDigit

theorem coarse_isNameChar : Coarse isNameChar := by
  intro c c' hc hc'
  rw [isNameChar_of_le hc, isNameChar_of_le hc']

/-- A coarse class says the same of a character and of its bytes. -/
theorem Coarse.eq_of_mem_octets (hp : Coarse p) (hb : b ∈ octets c) : p b = p c := by
  rcases Nat.lt_or_ge c.toNat 128 with hlt | hge
  · rw [octets_of_lt hlt, List.mem_singleton] at hb
    rw [hb]
  · exact hp (le_of_mem_octets hge hb) hge

/-- A run of bytes is the bytes of a run of characters. -/
theorem Coarse.takeWhile_bytewise (hp : Coarse p) (text : List Char) :
    (bytewise text).takeWhile p = bytewise (text.takeWhile p) := by
  induction text with
  | nil => rfl
  | cons c text ih =>
    rw [bytewise_cons]
    cases hc : p c with
    | true =>
      rw [List.takeWhile_append_of_pos fun b hb ↦ (hp.eq_of_mem_octets hb).trans hc, ih,
        List.takeWhile_cons_of_pos hc, bytewise_cons]
    | false =>
      obtain ⟨b, bs, hoctets⟩ := exists_octets_eq_cons c
      have hb : p b = false := (hp.eq_of_mem_octets (hoctets ▸ List.mem_cons_self)).trans hc
      rw [hoctets, List.cons_append, List.takeWhile_cons_of_neg (Bool.not_eq_true _ ▸ hb),
        List.takeWhile_cons_of_neg (Bool.not_eq_true _ ▸ hc)]
      rfl

theorem mem_octets_of_bytewise {rest bytes : List Char}
    (h : bytewise (c :: rest) = b :: bytes) : b ∈ octets c := by
  obtain ⟨a, as, hoctets⟩ := exists_octets_eq_cons c
  rw [bytewise_cons, hoctets, List.cons_append] at h
  rw [hoctets, (List.cons.inj h).1]
  exact List.mem_cons_self

/-- The text from an offset on to the end of a run of bytes, and the offset there. The first byte is
at the offset; the others are given. -/
def run? (p : Char → Bool) (text : List Char) (offset : Nat) (bytes : List Char) :
    Option (List Char × Nat) :=
  let last := offset + 1 + (bytes.takeWhile p).length
  (slice? offset last text).map (·, last)

theorem run?_eq_none (h : ¬IsBoundary text offset) (p : Char → Bool) (bytes : List Char) :
    run? p text offset bytes = none := by
  rw [run?, slice?_eq_none h]
  rfl

theorem run?_byteLength (hp : Coarse p) (hc : p c = true) {rest bytes : List Char}
    (hbytes : bytewise (c :: rest) = b :: bytes) (before : List Char) :
    run? p (before ++ c :: rest) (byteLength before) bytes =
      some (c :: rest.takeWhile p, byteLength before + byteLength (c :: rest.takeWhile p)) := by
  have hb : p b = true := (hp.eq_of_mem_octets (mem_octets_of_bytewise hbytes)).trans hc
  have hlength := congrArg List.length (hp.takeWhile_bytewise (c :: rest))
  rw [hbytes, List.takeWhile_cons_of_pos hb, List.takeWhile_cons_of_pos hc, List.length_cons,
    length_bytewise] at hlength
  have hlast : byteLength before + 1 + (bytes.takeWhile p).length =
      byteLength before + byteLength (c :: rest.takeWhile p) := by
    omega
  rw [run?, hlast, Lexeme.cons_eq_run_append p c rest, slice?_byteLength]
  rfl

end Text

/-! ## Layout -/

/-- Inside a comment nothing but the end of the line is looked for. -/
theorem skipComment_append {bytes : List Char} (h : ∀ b ∈ bytes, b ≠ '\n') (rest : List Char) :
    skipComment (bytes ++ rest) = skipComment rest := by
  induction bytes with
  | nil => rfl
  | cons b bytes ih =>
    rw [List.forall_mem_cons] at h
    rw [List.cons_append, skipComment, if_neg (by simpa using h.1), ih h.2]

mutual

theorem skipLayout_bytewise : ∀ text : List Char,
    skipLayout (Text.bytewise text) = Text.bytewise (skipLayout text)
  | [] => rfl
  | c :: text => by
    rcases Nat.lt_or_ge c.toNat 128 with hlt | hge
    · have hbytes : Text.bytewise (c :: text) = c :: Text.bytewise text := by
        rw [Text.bytewise_cons, Text.octets_of_lt hlt, List.singleton_append]
      rw [hbytes, skipLayout, skipLayout]
      split
      · exact skipLayout_bytewise text
      split
      · exact skipComment_bytewise text
      · exact hbytes.symm
    · obtain ⟨b, bs, hoctets⟩ := Text.exists_octets_eq_cons c
      have hb : 128 ≤ b.toNat := Text.le_of_mem_octets hge (hoctets ▸ List.mem_cons_self)
      rw [skipLayout_of_isNameChar (Text.isNameChar_of_le hge), Text.bytewise_cons, hoctets,
        List.cons_append, skipLayout_of_isNameChar (Text.isNameChar_of_le hb)]

private theorem skipComment_bytewise : ∀ text : List Char,
    skipComment (Text.bytewise text) = Text.bytewise (skipComment text)
  | [] => rfl
  | c :: text => by
    rcases Nat.lt_or_ge c.toNat 128 with hlt | hge
    · rw [Text.bytewise_cons, Text.octets_of_lt hlt, List.singleton_append, skipComment,
        skipComment]
      split
      · exact skipLayout_bytewise text
      · exact skipComment_bytewise text
    · have hne : ∀ b, 128 ≤ b.toNat → b ≠ '\n' := by
        rintro b hb rfl
        exact absurd hb (by decide)
      have hc : (c == '\n') ≠ true := by simpa using hne c hge
      rw [Text.bytewise_cons, skipComment_append fun b hb ↦ hne b (Text.le_of_mem_octets hge hb),
        skipComment_bytewise text, skipComment, if_neg hc]

end

/-! ## Lexemes -/

namespace Lexeme

/-- The lexeme whose first byte is at the offset, and the offset behind it; the other bytes are
given. There is no result if its text cannot be taken out. -/
def scan (text : List Char) (offset : Nat) (b : Char) (bytes : List Char) :
    Option (Except ReadError (Lexeme × Nat)) :=
  if b = '(' then some (.ok (openList, offset + 1))
  else if b = ')' then some (.ok (closeList, offset + 1))
  else if b = Text.quoteMark then some (.ok (quote, offset + 1))
  else if b = '#' then
    (Text.splitAt? (offset + 1) text).map fun (_, rest) ↦
      .ok ((afterHash rest).1, offset + 1 + Text.byteLength (rest.take 1))
  else if b.isDigit then
    (Text.run? Char.isDigit text offset bytes).map fun (digits, last) ↦
      (ofDigits digits).map (·, last)
  else if Text.isDelimiter b then some (.error (.unexpectedChar b))
  else
    (Text.run? Text.isNameChar text offset bytes).map fun (name, last) ↦
      .ok (atom (.symbol (String.ofList name)), last)

/-- The first lexeme that begins at or behind the offset, and the offset behind it. -/
def scanNext (text : List Char) (offset : Nat) :
    Option (Except ReadError (Option (Lexeme × Nat))) :=
  match skipLayout ((Text.bytewise text).drop offset) with
  | [] => some (.ok none)
  | b :: bytes =>
    (scan text (Text.byteLength text - (b :: bytes).length) b bytes).map (Except.map some)

variable {text before rest bytes : List Char} {offset last : Nat} {b c : Char} {l : Lexeme}

theorem lt_of_run? {p : Char → Bool} {run : List Char}
    (h : Text.run? p text offset bytes = some (run, last)) : offset < last := by
  obtain ⟨_, -, hlast⟩ := Option.map_eq_some_iff.mp h
  cases hlast
  omega

theorem lt_of_scan (h : scan text offset b bytes = some (.ok (l, last))) : offset < last := by
  unfold scan at h
  split at h
  · cases h; exact Nat.lt_succ_self _
  split at h
  · cases h; exact Nat.lt_succ_self _
  split at h
  · cases h; exact Nat.lt_succ_self _
  split at h
  · obtain ⟨_, -, h⟩ := Option.map_eq_some_iff.mp h
    cases h
    omega
  split at h
  · obtain ⟨⟨digits, last⟩, hrun, h⟩ := Option.map_eq_some_iff.mp h
    obtain ⟨_, -, h⟩ := map_eq_ok_iff.mp h
    cases h
    exact lt_of_run? hrun
  split at h
  · cases h
  · obtain ⟨⟨name, last⟩, hrun, h⟩ := Option.map_eq_some_iff.mp h
    cases h
    exact lt_of_run? hrun

theorem lt_of_scanNext (h : scanNext text offset = some (.ok (some (l, last)))) :
    offset < last ∧ offset < Text.byteLength text := by
  unfold scanNext at h
  split at h
  · cases h
  next b bytes hskip =>
    have hle := length_skipLayout_le ((Text.bytewise text).drop offset)
    rw [hskip, List.length_drop, Text.length_bytewise, List.length_cons] at hle
    obtain ⟨result, hscan, hresult⟩ := Option.map_eq_some_iff.mp h
    obtain ⟨found, rfl, hfound⟩ := map_eq_ok_iff.mp hresult
    cases hfound
    have hlt := lt_of_scan hscan
    rw [List.length_cons] at hlt
    omega

theorem scan_digit (h : b.isDigit = true) : scan text offset b bytes =
    (Text.run? Char.isDigit text offset bytes).map fun (digits, last) ↦
      (ofDigits digits).map (·, last) := by
  have hne : ∀ d : Char, d.isDigit = false → b ≠ d := fun d hd ↦ Text.ne_of_class h hd
  rw [scan, if_neg (hne _ (by decide)), if_neg (hne _ (by decide)), if_neg (hne _ (by decide)),
    if_neg (hne _ (by decide)), if_pos h]

theorem scan_stray (h : Text.isDelimiter b = true) (ho : b ≠ '(') (hc : b ≠ ')') :
    scan text offset b bytes = some (.error (.unexpectedChar b)) := by
  have hne : ∀ d : Char, Text.isDelimiter d = false → b ≠ d := fun d hd ↦ Text.ne_of_class h hd
  rw [scan, if_neg ho, if_neg hc, if_neg (hne _ (by decide)), if_neg (hne _ (by decide)),
    if_neg (by simp [Text.isDigit_of_isDelimiter h]), if_pos h]

theorem scan_name (h : BeginsName b) : scan text offset b bytes =
    (Text.run? Text.isNameChar text offset bytes).map fun (name, last) ↦
      .ok (atom (.symbol (String.ofList name)), last) := by
  obtain ⟨hs, hd, hh, hq⟩ := h
  have hne : ∀ d : Char, Text.isDelimiter d = true → b ≠ d := fun d hd ↦
    (Text.ne_of_class hd hs).symm
  rw [scan, if_neg (hne _ (by decide)), if_neg (hne _ (by decide)), if_neg hq, if_neg hh,
    if_neg (by rw [hd]; exact Bool.false_ne_true), if_neg (by rw [hs]; exact Bool.false_ne_true)]

theorem scan_hash : scan text offset '#' bytes =
    (Text.splitAt? (offset + 1) text).map fun (_, rest) ↦
      .ok ((afterHash rest).1, offset + 1 + Text.byteLength (rest.take 1)) := rfl

/-! ### At a boundary -/

theorem beginsName_of_le (h : 128 ≤ c.toNat) : BeginsName c := by
  refine ⟨Text.eq_false_of_lt Text.toNat_lt_of_isDelimiter h,
    Text.eq_false_of_lt Text.toNat_lt_of_isDigit h, ?_, ?_⟩
  · rintro rfl
    exact absurd h (by decide)
  · rintro rfl
    exact absurd h (by decide)

theorem isNameChar_of_beginsName (h : BeginsName c) (hs : Text.isSpace c = false) :
    Text.isNameChar c = true := by
  rw [Text.isNameChar, hs, h.1]
  rfl

theorem scan_name_byteLength (before : List Char) (hs : Text.isSpace c = false)
    (hc : BeginsName c) (hb : BeginsName b) (hbytes : Text.bytewise (c :: rest) = b :: bytes) :
    scan (before ++ c :: rest) (Text.byteLength before) b bytes =
      some (Text.located (before ++ c :: rest) (start c rest)) := by
  rw [scan_name hb, start_name hc, Text.run?_byteLength Text.coarse_isNameChar
    (isNameChar_of_beginsName hc hs) hbytes]
  conv => rhs; rw [cons_eq_run_append Text.isNameChar c rest, Text.located_append]
  rfl

/-- At a boundary the bytes begin the lexeme that the characters begin. -/
theorem scan_byteLength (before : List Char) (hs : Text.isSpace c = false)
    (hbytes : Text.bytewise (c :: rest) = b :: bytes) :
    scan (before ++ c :: rest) (Text.byteLength before) b bytes =
      some (Text.located (before ++ c :: rest) (start c rest)) := by
  rcases Nat.lt_or_ge c.toNat 128 with hlt | hge
  · obtain ⟨rfl, -⟩ : c = b ∧ Text.bytewise rest = bytes := by
      rwa [Text.bytewise_cons, Text.octets_of_lt hlt, List.singleton_append, List.cons.injEq]
        at hbytes
    cases Initial.of c with
    | openList => exact congrArg some (Text.located_append before ['('] rest openList).symm
    | closeList => exact congrArg some (Text.located_append before [')'] rest closeList).symm
    | quote => exact congrArg some (Text.located_append before [Text.quoteMark] rest quote).symm
    | hash =>
      have hsplit : Text.splitAt? (Text.byteLength before + 1) (before ++ '#' :: rest) =
          some (before ++ ['#'], rest) :=
        Text.splitAt?_eq_some_iff.mpr ⟨by rw [List.append_assoc, List.singleton_append],
          Text.byteLength_append before ['#']⟩
      have hstart : start '#' rest = .ok ((afterHash rest).1, rest.drop 1) := by
        cases rest <;> rfl
      have hwidth : Text.byteLength ('#' :: rest.take 1) = 1 + Text.byteLength (rest.take 1) := rfl
      have hword : '#' :: rest = ('#' :: rest.take 1) ++ rest.drop 1 := by
        rw [List.cons_append, List.take_append_drop]
      rw [scan_hash, hsplit, hstart]
      conv => rhs; rw [hword, Text.located_append, hwidth, ← Nat.add_assoc]
      rfl
    | digit hd =>
      rw [scan_digit hd, start_digit hd, Text.run?_byteLength Text.coarse_isDigit hd hbytes]
      conv => rhs; rw [cons_eq_run_append Char.isDigit c rest, Text.located_append_map]
      rfl
    | stray hd ho hc =>
      rw [scan_stray hd ho hc, start_stray hd ho hc]
      rfl
    | name hc => exact scan_name_byteLength before hs hc hc hbytes
  · -- a character beyond ASCII begins a name, and so does its first byte
    have hb : 128 ≤ b.toNat := Text.le_of_mem_octets hge (Text.mem_octets_of_bytewise hbytes)
    exact scan_name_byteLength before hs (beginsName_of_le hge) (beginsName_of_le hb) hbytes

theorem scanNext_of_skipLayout {text : List Char} (h : skipLayout text = c :: rest)
    (before : List Char) :
    scanNext (before ++ text) (Text.byteLength before) =
      some ((Text.located (before ++ text) (start c rest)).map some) := by
  obtain ⟨layout, rfl⟩ : c :: rest <:+ text := h ▸ (layout_skipLayout text).suffix
  obtain ⟨b, bytes, hbytes⟩ : ∃ b bytes, Text.bytewise (c :: rest) = b :: bytes := by
    obtain ⟨b, bs, hoctets⟩ := Text.exists_octets_eq_cons c
    exact ⟨b, bs ++ Text.bytewise rest, by rw [Text.bytewise_cons, hoctets, List.cons_append]⟩
  have hoffset : Text.byteLength (before ++ (layout ++ c :: rest)) - (b :: bytes).length =
      Text.byteLength (before ++ layout) := by
    rw [← hbytes, Text.length_bytewise, ← List.append_assoc, Text.byteLength_append (_ ++ _),
      Nat.add_sub_cancel]
  rw [scanNext, Text.drop_bytewise, skipLayout_bytewise, h, hbytes]
  dsimp only
  rw [hoffset, ← List.append_assoc,
    scan_byteLength (before ++ layout) (not_layout_of_skipLayout h).1 hbytes]
  rfl

theorem scanNext_of_next_none {text : List Char} (h : next text = .ok none) (before : List Char) :
    scanNext (before ++ text) (Text.byteLength before) = some (.ok none) := by
  rw [scanNext, Text.drop_bytewise, skipLayout_bytewise, next_eq_none_iff.mp h]
  rfl

theorem scanNext_of_next_error {text : List Char} {e : ReadError} (h : next text = .error e)
    (before : List Char) :
    scanNext (before ++ text) (Text.byteLength before) = some (.error e) := by
  obtain ⟨c, rest, hskip, hstart⟩ := next_eq_error_iff.mp h
  rw [scanNext_of_skipLayout hskip, hstart]
  rfl

theorem Begins.suffix {text : List Char} (h : l.Begins text rest) : rest <:+ text := by
  cases l with
  | openList | closeList | quote =>
    cases h
    exact List.suffix_cons _ _
  | atom d => exact Datum.Written.suffix h

theorem exists_scanNext_of_next {text : List Char} (h : next text = .ok (some (l, rest)))
    (before : List Char) :
    ∃ word, text = word ++ rest ∧ scanNext (before ++ text) (Text.byteLength before) =
      some (.ok (some (l, Text.byteLength (before ++ word)))) := by
  obtain ⟨text', hlayout, hbegins⟩ := exists_begins_of_next h
  obtain ⟨word, rfl⟩ := hbegins.suffix.trans hlayout.suffix
  obtain ⟨c, tail, hskip, hstart⟩ := next_eq_some_iff.mp h
  refine ⟨word, rfl, ?_⟩
  rw [scanNext_of_skipLayout hskip, hstart, Text.located_append, Text.byteLength_append]
  rfl

/-! ### Inside a character -/

/-- Inside of a character a name seems to begin, but it cannot be taken out. -/
theorem scanNext_eq_none (hlt : offset < Text.byteLength text) (h : ¬Text.IsBoundary text offset) :
    scanNext text offset = none := by
  obtain ⟨b, bytes, hdrop, hb⟩ := Text.exists_drop_bytewise hlt h
  have hlength := congrArg List.length hdrop
  rw [List.length_drop, Text.length_bytewise] at hlength
  have hoffset : Text.byteLength text - (b :: bytes).length = offset := by omega
  rw [scanNext, hdrop, skipLayout_of_isNameChar (Text.isNameChar_of_le hb)]
  dsimp only
  rw [hoffset, scan_name (beginsName_of_le hb), Text.run?_eq_none h]
  rfl

end Lexeme

namespace Datum

/-- Reads on by bytes until everything that is open and one datum more are finished. -/
def scanWithin (text : List Char) (openings : List Opening) (offset : Nat) :
    Option (Except ReadError (Datum × Nat)) :=
  match _h : Lexeme.scanNext text offset with
  | none => none
  | some (.error e) => some (.error e)
  | some (.ok none) => some (.error (Opening.atEnd openings))
  | some (.ok (some (lexeme, last))) =>
    match Opening.advance openings lexeme with
    | .error e => some (.error e)
    | .ok (.complete d) => some (.ok (d, last))
    | .ok (.pending openings') => scanWithin text openings' last
termination_by Text.byteLength text - offset
decreasing_by
  have hlt := Lexeme.lt_of_scanNext _h
  omega

/-- Reads by bytes the datum that begins at or behind an offset. -/
def scanAt (text : List Char) (offset : Nat) : Option (Except ReadError (Datum × Nat)) :=
  scanWithin text [] offset

theorem scanWithin_eq {text : List Char} {offset : Nat}
    {found : Option (Except ReadError (Option (Lexeme × Nat)))}
    (h : Lexeme.scanNext text offset = found) (openings : List Opening) :
    scanWithin text openings offset =
      match found with
      | none => none
      | some (.error e) => some (.error e)
      | some (.ok none) => some (.error (Opening.atEnd openings))
      | some (.ok (some (lexeme, last))) =>
        match Opening.advance openings lexeme with
        | .error e => some (.error e)
        | .ok (.complete d) => some (.ok (d, last))
        | .ok (.pending openings') => scanWithin text openings' last := by
  rw [scanWithin]
  split <;>
  next h' =>
    cases h'.symm.trans h
    rfl

theorem scanWithin_byteLength (before : List Char) (openings : List Opening) (text : List Char) :
    scanWithin (before ++ text) openings (Text.byteLength before) =
      some (Text.located (before ++ text) (readWithin openings text)) := by
  fun_induction readWithin openings text generalizing before with
  | case1 openings text e hn =>
    rw [scanWithin_eq (Lexeme.scanNext_of_next_error hn before)]
    rfl
  | case2 openings text hn =>
    rw [scanWithin_eq (Lexeme.scanNext_of_next_none hn before)]
    rfl
  | case3 openings text l rest hn e ha =>
    obtain ⟨word, rfl, hscan⟩ := Lexeme.exists_scanNext_of_next hn before
    rw [scanWithin_eq hscan]
    dsimp only
    rw [ha]
    rfl
  | case4 openings text l rest hn d ha =>
    obtain ⟨word, rfl, hscan⟩ := Lexeme.exists_scanNext_of_next hn before
    rw [scanWithin_eq hscan, Text.located_append, ← Text.byteLength_append]
    dsimp only
    rw [ha]
  | case5 openings text l rest hn openings' ha ih =>
    obtain ⟨word, rfl, hscan⟩ := Lexeme.exists_scanNext_of_next hn before
    rw [scanWithin_eq hscan]
    dsimp only
    rw [ha]
    dsimp only
    -- the lexeme ends at a boundary again
    rw [← List.append_assoc]
    exact ih (before ++ word)

/-- Reading by bytes is reading. -/
theorem scanAt_eq_readAt (text : List Char) (offset : Nat) :
    scanAt text offset = readAt text offset := by
  by_cases hend : Text.byteLength text ≤ offset
  · have hnone : Lexeme.scanNext text offset = some (.ok none) := by
      rw [Lexeme.scanNext, List.drop_of_length_le (by rwa [Text.length_bytewise])]
      rfl
    rw [readAt, if_pos hend, scanAt, scanWithin_eq hnone]
    rfl
  rw [readAt, if_neg hend]
  by_cases hboundary : Text.IsBoundary text offset
  · obtain ⟨before, after, rfl, rfl⟩ := Text.isBoundary_iff.mp hboundary
    rw [Text.splitAt?_byteLength, scanAt, scanWithin_byteLength]
    rfl
  · rw [Text.splitAt?_eq_none_iff.mpr hboundary, scanAt,
      scanWithin_eq (Lexeme.scanNext_eq_none (Nat.lt_of_not_le hend) hboundary)]
    rfl

end Datum

end LexicalLisp
