import LexicalLisp.Completion
import LexicalLisp.Proofs.Reading.Bytes
import Mathlib.Data.List.Induction

/-!
# The word in front of a cursor

A text ends with a word, which goes back to its beginning or to its last separator
(`Completion.isWord_or_lastSeparator`). Completion takes this word from the line, and for this it
steps over the first byte of the separator. A separator of one byte is behind it then, and the word
is what is completed. A wider one is not: the offset lies inside the separator, where no text
begins, and there is no completion at all (`Completion.LastSeparator.complete?_eq_none`).

The delimiters and the quote mark have one byte, and so have the spaces that separate forms. Wide
separators are blank characters beyond ASCII, such as the no-break space.
-/

namespace LexicalLisp

namespace Completion

/-! ## Texts and their last words -/

/-- There is no separator in the text. -/
def IsWord (word : List Char) : Prop := ∀ c ∈ word, isSeparator c = false

/-- The last separator of a text, the text in front of it, and the word behind it. -/
structure LastSeparator (before outer : List Char) (sep : Char) (word : List Char) : Prop where
  /-- The three parts make up the text. -/
  eq_append : before = outer ++ sep :: word
  /-- The character between the two others is a separator. -/
  separates : isSeparator sep = true
  /-- It is the last one. -/
  isWord : IsWord word

/-- A text is a word, or it has a last separator. -/
theorem isWord_or_lastSeparator (before : List Char) :
    IsWord before ∨ ∃ outer sep word, LastSeparator before outer sep word := by
  -- The induction is from the end of the text, since the last separator is looked for.
  induction before using List.reverseRecOn with
  | nil => exact .inl nofun
  | append_singleton before c ih =>
    cases hc : isSeparator c with
    | true => exact .inr ⟨before, c, [], rfl, hc, nofun⟩
    | false =>
      rcases ih with hword | ⟨outer, sep, word, hbefore, hsep, hword⟩
      · exact .inl (List.forall_mem_append.mpr ⟨hword, List.forall_mem_singleton.mpr hc⟩)
      · refine .inr ⟨outer, sep, word ++ [c], ?_, hsep, ?_⟩
        · rw [hbefore, List.append_assoc, List.cons_append]
        · exact List.forall_mem_append.mpr ⟨hword, List.forall_mem_singleton.mpr hc⟩

variable {before outer word : List Char} {sep : Char}

theorem IsWord.dropWhile_reverse (h : IsWord word) (rest : List Char) :
    (word.reverse ++ rest).dropWhile (!isSeparator ·) = rest.dropWhile (!isSeparator ·) := by
  refine List.dropWhile_append_of_pos fun c hc ↦ ?_
  rw [h c (List.mem_reverse.mp hc), Bool.not_false]

theorem IsWord.wordStart_eq (h : IsWord word) : wordStart word = 0 := by
  have hdrop := h.dropWhile_reverse []
  rw [List.append_nil] at hdrop
  rw [wordStart, hdrop]
  rfl

theorem LastSeparator.wordStart_eq (h : LastSeparator before outer sep word) :
    wordStart before = Text.byteLength outer + 1 := by
  have hreverse : before.reverse = word.reverse ++ sep :: outer.reverse := by
    rw [h.eq_append, List.reverse_append, List.reverse_cons, List.append_assoc,
      List.singleton_append]
  have hdrop : (sep :: outer.reverse).dropWhile (!isSeparator ·) = sep :: outer.reverse :=
    List.dropWhile_cons_of_neg (by rw [h.separates]; decide)
  rw [wordStart, hreverse, h.isWord.dropWhile_reverse, hdrop]
  exact congrArg (· + 1) (Text.byteLength_reverse outer)

/-! ## Completing the word -/

theorem narrow_or_wide (c : Char) : c.utf8Size = 1 ∨ 1 < c.utf8Size :=
  (Nat.eq_or_lt_of_le (Nat.succ_le_of_lt c.utf8Size_pos)).imp_left Eq.symm

variable (table : OperatorTable) (s : Store) (f : FrameId)

/-- What stands behind the cursor does not matter. -/
theorem complete?_append (before after : List Char) :
    complete? table s f (before ++ after) (Text.byteLength before) =
      (Text.splitAt? (wordStart before) before).map fun (_, word) ↦
        ⟨wordStart before, candidatesFor table s f word⟩ := by
  rw [complete?, Text.splitAt?_byteLength]
  cases h : Text.splitAt? (wordStart before) before <;> simp [h]

theorem complete?_eq_some (front : List Char)
    (h : wordStart (front ++ word) = Text.byteLength front) (after : List Char) :
    complete? table s f (front ++ word ++ after) (Text.byteLength (front ++ word)) =
      some ⟨Text.byteLength front, candidatesFor table s f word⟩ := by
  rw [complete?_append, h, Text.splitAt?_byteLength, Option.map_some]

theorem IsWord.complete?_eq (h : IsWord word) (after : List Char) :
    complete? table s f (word ++ after) (Text.byteLength word) =
      some ⟨0, candidatesFor table s f word⟩ :=
  complete?_eq_some table s f [] h.wordStart_eq after

theorem LastSeparator.complete?_eq (h : LastSeparator before outer sep word)
    (hsep : sep.utf8Size = 1) (after : List Char) :
    complete? table s f (before ++ after) (Text.byteLength before) =
      some ⟨Text.byteLength outer + 1, candidatesFor table s f word⟩ := by
  have hfront : Text.byteLength (outer ++ [sep]) = Text.byteLength outer + 1 := by
    rw [Text.byteLength_append, Text.byteLength_cons, hsep, Text.byteLength_nil]
  have hbefore : before = outer ++ [sep] ++ word := by
    rw [h.eq_append, List.append_assoc, List.singleton_append]
  have hstart := h.wordStart_eq
  rw [hbefore] at hstart ⊢
  rw [complete?_eq_some table s f _ (hstart.trans hfront.symm), hfront]

theorem LastSeparator.complete?_eq_none (h : LastSeparator before outer sep word)
    (hsep : 1 < sep.utf8Size) (after : List Char) :
    complete? table s f (before ++ after) (Text.byteLength before) = none := by
  have hinside : ¬Text.IsBoundary before (Text.byteLength outer + 1) := by
    rw [h.eq_append]
    exact Text.not_isBoundary_of_inside (Nat.lt_succ_self _) (Nat.add_lt_add_left hsep _)
  rw [complete?_append, h.wordStart_eq, Text.splitAt?_eq_none_iff.mpr hinside]
  rfl

/-- Whatever its width, a separator in front of the cursor keeps a completion from beginning with
the line. -/
theorem LastSeparator.complete?_ne (h : LastSeparator before outer sep word)
    (candidates : List String) :
    complete? table s f before (Text.byteLength before) ≠ some ⟨0, candidates⟩ := by
  intro hcompletion
  have hends : complete? table s f (before ++ []) (Text.byteLength before) =
      some ⟨0, candidates⟩ := by rwa [List.append_nil]
  rcases narrow_or_wide sep with hsep | hwide
  · cases hends.symm.trans (h.complete?_eq table s f hsep [])
  · cases hends.symm.trans (h.complete?_eq_none table s f hwide [])

/-- Either the word in front of the cursor is completed, or the separator in front of it is too wide
and nothing is. -/
theorem complete?_cases (before after : List Char) :
    (∃ front word, before = front ++ word ∧ IsWord word ∧
      (front = [] ∨ ∃ outer sep, front = outer ++ [sep] ∧ isSeparator sep = true) ∧
      complete? table s f (before ++ after) (Text.byteLength before) =
        some ⟨Text.byteLength front, candidatesFor table s f word⟩) ∨
    ∃ outer sep word, LastSeparator before outer sep word ∧ 1 < sep.utf8Size ∧
      complete? table s f (before ++ after) (Text.byteLength before) = none := by
  rcases isWord_or_lastSeparator before with hword | ⟨outer, sep, word, hlast⟩
  · exact .inl ⟨[], before, rfl, hword, .inl rfl, hword.complete?_eq table s f after⟩
  rcases narrow_or_wide sep with hsep | hwide
  · refine .inl ⟨outer ++ [sep], word, ?_, hlast.isWord, .inr ⟨outer, sep, rfl, hlast.separates⟩,
      ?_⟩
    · rw [hlast.eq_append, List.append_assoc, List.singleton_append]
    · rw [hlast.complete?_eq table s f hsep after, Text.byteLength_append, Text.byteLength_cons,
        hsep, Text.byteLength_nil]
  · exact .inr ⟨outer, sep, word, hlast, hwide, hlast.complete?_eq_none table s f hwide after⟩

/-- **The word in front of the cursor.** At a character boundary there is no completion if and only
if the last separator in front of the boundary is wider than one byte. Otherwise the completion
begins at a boundary that is not behind the cursor, there is no separator from there to the cursor,
it is the beginning of the line or the end of a separator, and the candidates are those for the text
in between. -/
theorem completion_finds_the_word {line : List Char} {offset : Nat}
    (h : Text.IsBoundary line offset) :
    (complete? table s f line offset = none ↔ ∃ outer sep word after,
      line = outer ++ sep :: (word ++ after) ∧ Text.byteLength (outer ++ sep :: word) = offset ∧
        isSeparator sep = true ∧ (∀ c ∈ word, isSeparator c = false) ∧ 1 < sep.utf8Size) ∧
    ∀ completion, complete? table s f line offset = some completion →
      Text.IsBoundary line completion.start ∧ completion.start ≤ offset ∧
      ∃ word, Text.slice? completion.start offset line = some word ∧
        (∀ c ∈ word, isSeparator c = false) ∧
        (completion.start = 0 ∨ ∃ outer sep rest, line = outer ++ sep :: rest ∧
          Text.byteLength outer + sep.utf8Size = completion.start ∧ isSeparator sep = true) ∧
        completion.candidates = candidatesFor table s f word := by
  obtain ⟨before, after, hline, hoffset⟩ := Text.isBoundary_iff.mp h
  have hcases := complete?_cases table s f before after
  rw [← hline, hoffset] at hcases
  constructor
  · constructor
    · intro hnone
      obtain ⟨front, word, -, -, -, hsome⟩ | ⟨outer, sep, word, hlast, hwide, -⟩ := hcases
      · cases hnone.symm.trans hsome
      · rw [hlast.eq_append] at hline hoffset
        rw [List.append_assoc, List.cons_append] at hline
        exact ⟨outer, sep, word, after, hline, hoffset, hlast.separates, hlast.isWord, hwide⟩
    · rintro ⟨outer, sep, word, after', hline', hoffset', hsep, hword, hwide⟩
      have hlast : LastSeparator (outer ++ sep :: word) outer sep word := ⟨rfl, hsep, hword⟩
      rw [hline', ← hoffset', ← List.cons_append, ← List.append_assoc]
      exact hlast.complete?_eq_none table s f hwide after'
  · intro completion hcompletion
    obtain ⟨front, word, hbefore, hword, hfront, hsome⟩ | ⟨outer, sep, word, -, -, hnone⟩ := hcases
    · cases hcompletion.symm.trans hsome
      subst hbefore
      rw [List.append_assoc] at hline
      rw [Text.byteLength_append] at hoffset
      refine ⟨Text.isBoundary_iff.mpr ⟨front, word ++ after, hline, rfl⟩,
        hoffset ▸ Nat.le_add_right _ _, word, ?_, hword, ?_, rfl⟩
      · rw [hline, ← hoffset]
        exact Text.slice?_byteLength front word after
      · obtain rfl | ⟨outer, sep, rfl, hsep⟩ := hfront
        · exact .inl rfl
        · refine .inr ⟨outer, sep, word ++ after, ?_, ?_, hsep⟩
          · rw [hline, List.append_assoc, List.singleton_append]
          · rw [Text.byteLength_append, Text.byteLength_cons, Text.byteLength_nil, Nat.add_zero]
    · cases hcompletion.symm.trans hnone

/-- Behind a no-break space there is no completion. Behind a quote mark there is one, and the wide
characters on both sides of it do no harm. -/
theorem completion_finds_the_word_between_wide_characters :
    let s := (Store.empty.newFrame none).2
    complete? .full s 0 "x\u00a0de".toList 5 = none ∧
      ∃ completion word, complete? .full s 0 "(λ'dé x)".toList 7 = some completion ∧
        completion.start = 4 ∧ Text.slice? completion.start 7 "(λ'dé x)".toList = some word ∧
        (∀ c ∈ word, isSeparator c = false) ∧
        completion.candidates = candidatesFor .full s 0 word := by
  intro s
  have hline : Text.IsBoundary "x\u00a0de".toList 5 :=
    Text.isBoundary_iff.mpr ⟨"x\u00a0de".toList, [], rfl, by decide⟩
  have hline' : Text.IsBoundary "(λ'dé x)".toList 7 :=
    Text.isBoundary_iff.mpr ⟨"(λ'dé".toList, " x)".toList, rfl, by decide⟩
  obtain ⟨hnone, -⟩ := completion_finds_the_word .full s 0 hline
  obtain ⟨-, hsome⟩ := completion_finds_the_word .full s 0 hline'
  have hlast : LastSeparator "(λ'dé".toList "(λ".toList Text.quoteMark "dé".toList :=
    ⟨rfl, rfl, List.forall_mem_cons.mpr ⟨by decide, List.forall_mem_singleton.mpr (by decide)⟩⟩
  have hcompletion : complete? .full s 0 "(λ'dé x)".toList 7 =
      some ⟨4, candidatesFor .full s 0 "dé".toList⟩ := hlast.complete?_eq .full s 0 rfl " x)".toList
  obtain ⟨-, -, word, hslice, hword, -, hcandidates⟩ := hsome _ hcompletion
  refine ⟨hnone.mpr ⟨['x'], '\u00a0', "de".toList, [], rfl, by decide, by decide, ?_, by decide⟩,
    _, word, hcompletion, rfl, hslice, hword, hcandidates⟩
  exact List.forall_mem_cons.mpr ⟨by decide, List.forall_mem_singleton.mpr (by decide)⟩

end Completion

end LexicalLisp
