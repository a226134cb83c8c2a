import LexicalLisp.Proofs.Completions.Candidates
import LexicalLisp.Proofs.Completions.Words
import LexicalLisp.Proofs.Outlines.Lossless
import LexicalLisp.Proofs.Reading.Positions
import LexicalLisp.Proofs.Sessions.Course

/-!
# Completing names

A name goes on up to a space or a delimiter. A word in front of a cursor ends at more characters: at
the quote mark, since the datum that a mark quotes is completed without it, and at every blank
character. Of the characters of a name these two kinds are the separators
(`Completion.isSeparator_iff_of_isNameChar`). A quote mark can stand inside a name, though not at
its beginning, and so can a blank character that is no space, such as a vertical tab.

Up to such a character a name that is bound in the root is completed from its beginning. Behind one,
what is completed is only the rest (`Completion.bound_names_are_completed`).
-/

namespace LexicalLisp

namespace Completion

open Relation

theorem isSeparator_iff_of_isNameChar {c : Char} (h : Text.isNameChar c = true) :
    isSeparator c = true ↔ c = Text.quoteMark ∨ Text.isBlank c = true := by
  have hdelimiter : Text.isDelimiter c = false := by
    rw [Text.isNameChar, Bool.and_eq_true, Bool.not_eq_true', Bool.not_eq_true'] at h
    exact h.2
  rw [isSeparator, hdelimiter, Bool.or_false, Bool.or_eq_true, beq_iff_eq, or_comm]

theorem isWord_of_isNameChar {word : List Char} (h : ∀ c ∈ word, Text.isNameChar c = true)
    (hplain : ∀ c ∈ word, c ≠ Text.quoteMark ∧ Text.isBlank c = false) : IsWord word := by
  intro c hc
  obtain ⟨hquote, hblank⟩ := hplain c hc
  rw [← Bool.not_eq_true, isSeparator_iff_of_isNameChar (h c hc), hblank]
  exact not_or.mpr ⟨hquote, Bool.false_ne_true⟩

theorem mem_candidatesFor_of_local? {table : OperatorTable} {s : Store} {f : FrameId}
    {name : String} (hbound : (s.local? f name).isSome = true) {word : List Char} :
    name ∈ candidatesFor table s f word ↔ word <+: name.toList := by
  have hresolves : s.Resolves f name := Store.resolves_iff.mpr ⟨f, s.mem_chain_self f, hbound⟩
  rw [mem_candidatesFor_iff]
  exact and_iff_left (.inr (.inr hresolves))

/-- **Completing a bound name.** Take a name that was read from some text and is bound in the root
of a session, and a part of it from its beginning. If there is no quote mark and no blank character
in this part, then it is completed from its beginning, and the name is a candidate. Otherwise, if
the last such character has one byte, what is completed is the rest behind it, and the name is a
candidate if and only if it begins with this rest. -/
theorem bound_names_are_completed {text : List Char} {offset next : Nat} {d : Datum}
    (hread : Datum.readAt text offset = some (.ok (d, next))) {name : String}
    (hname : name ∈ d.names) (session : Session) {s : Store}
    (hbound : (s.local? session.root name).isSome = true) {part rest : List Char}
    (hpart : name.toList = part ++ rest) :
    ((∀ c ∈ part, c ≠ Text.quoteMark ∧ Text.isBlank c = false) →
      ∃ candidates, complete? session.operators s session.root part (Text.byteLength part) =
        some ⟨0, candidates⟩ ∧ name ∈ candidates) ∧
    ∀ outer sep word, part = outer ++ sep :: word →
      (sep = Text.quoteMark ∨ Text.isBlank sep = true) →
      (∀ c ∈ word, c ≠ Text.quoteMark ∧ Text.isBlank c = false) → sep.utf8Size = 1 →
      ∃ candidates, complete? session.operators s session.root part (Text.byteLength part) =
        some ⟨Text.byteLength outer + 1, candidates⟩ ∧
          (name ∈ candidates ↔ word <+: name.toList) := by
  have hisName := (Datum.readable_of_readAt hread).isName_of_mem_names name hname
  have hchars : ∀ c ∈ part, Text.isNameChar c = true := by
    intro c hc
    refine hisName.2.1 c ?_
    rw [hpart]
    exact List.mem_append_left rest hc
  constructor
  · intro hplain
    have hcompletion := (isWord_of_isNameChar hchars hplain).complete?_eq
      session.operators s session.root []
    rw [List.append_nil] at hcompletion
    exact ⟨_, hcompletion, (mem_candidatesFor_of_local? hbound).mpr ⟨rest, hpart.symm⟩⟩
  · rintro outer sep word rfl hsep hplain hsize
    obtain ⟨-, hsepChar⟩ := List.forall_mem_append.mp hchars
    obtain ⟨hsepChar, hwordChars⟩ := List.forall_mem_cons.mp hsepChar
    have hlast : LastSeparator (outer ++ sep :: word) outer sep word :=
      ⟨rfl, (isSeparator_iff_of_isNameChar hsepChar).mpr hsep,
        isWord_of_isNameChar hwordChars hplain⟩
    have hcompletion := hlast.complete?_eq session.operators s session.root hsize []
    rw [List.append_nil] at hcompletion
    exact ⟨_, hcompletion, mem_candidatesFor_of_local? hbound⟩

/-- A name with a wide character is a candidate for its beginning. A name with a quote mark is none
for what it has behind the mark. -/
theorem bound_names_are_completed_behind_quote_mark :
    let s := ((Store.empty.newFrame none).2.bind 0 "déjà" (.bool true)).bind 0 "it's-its"
      (.bool true)
    (∃ candidates, complete? .full s 0 "dé".toList 3 = some ⟨0, candidates⟩ ∧
      "déjà" ∈ candidates) ∧
    ∃ candidates, complete? .full s 0 "it's-".toList 5 = some ⟨3, candidates⟩ ∧
      "it's-its" ∉ candidates := by
  intro s
  have hread : Datum.read "déjà".toList = .ok (.symbol "déjà", []) := by cbv
  have hread' : Datum.read "it's-its".toList = .ok (.symbol "it's-its", []) := by cbv
  have hword : ∀ c ∈ "dé".toList, c ≠ Text.quoteMark ∧ Text.isBlank c = false :=
    List.forall_mem_cons.mpr ⟨by decide, List.forall_mem_singleton.mpr (by decide)⟩
  have hrest : ∀ c ∈ "s-".toList, c ≠ Text.quoteMark ∧ Text.isBlank c = false :=
    List.forall_mem_cons.mpr ⟨by decide, List.forall_mem_singleton.mpr (by decide)⟩
  obtain ⟨hbeginning, -⟩ := bound_names_are_completed (Datum.readAt_zero_of_read hread)
    (List.mem_singleton_self _) ⟨.full, 0⟩ (s := s) (by decide)
    (show "déjà".toList = "dé".toList ++ "jà".toList from rfl)
  obtain ⟨-, hbehind⟩ := bound_names_are_completed (Datum.readAt_zero_of_read hread')
    (List.mem_singleton_self _) ⟨.full, 0⟩ (s := s) (by decide)
    (show "it's-its".toList = "it's-".toList ++ "its".toList from rfl)
  obtain ⟨candidates, hcompletion, hmem⟩ := hbehind "it".toList Text.quoteMark "s-".toList rfl
    (.inl rfl) hrest rfl
  exact ⟨hbeginning hword, candidates, hcompletion, fun h ↦ absurd (hmem.mp h) (by decide)⟩

/-- Two names are read that have a separator in them, a quote mark and a vertical tab, and they are
bound in the root of a session. Neither is completed from its beginning. -/
theorem separators_in_names_begin_words :
    ∃ c : Course, ReflTransGen (Course.Step .any) (Course.start .full) c ∧
      ∀ name ∈ ["a'b", "a\x0bb"],
        Datum.readAt name.toList 0 = some (.ok (.symbol name, Text.byteLength name.toList)) ∧
        (c.store.local? c.session.root name).isSome = true ∧
        ¬∃ candidates, complete? c.session.operators c.store c.session.root name.toList
          (Text.byteLength name.toList) = some ⟨0, candidates⟩ ∧ name ∈ candidates := by
  let c₁ := (Course.start .full).after ((Course.start .full).store.bind 0 "a'b" (.bool true)) []
  let c := c₁.after (c₁.store.bind 0 "a\x0bb" (.bool true)) []
  have hrun₁ : (Course.start .full).session.bind "a'b" (.bool true) (Course.start .full).store =
      some ⟨.ok (), c₁.store, [.bind "a'b" (.bool true)]⟩ := rfl
  have hrun : c₁.session.bind "a\x0bb" (.bool true) c₁.store =
      some ⟨.ok (), c.store, [.bind "a\x0bb" (.bool true)]⟩ := rfl
  have hc : ReflTransGen (Course.Step .any) (Course.start .full) c :=
    (ReflTransGen.single (.bind (.inr fun _ ↦ nofun) hrun₁)).tail (.bind (.inr fun _ ↦ nofun) hrun)
  have hquote : LastSeparator "a'b".toList ['a'] Text.quoteMark ['b'] :=
    ⟨rfl, rfl, List.forall_mem_singleton.mpr (by decide)⟩
  have htab : LastSeparator "a\x0bb".toList ['a'] '\x0b' ['b'] :=
    ⟨rfl, rfl, List.forall_mem_singleton.mpr (by decide)⟩
  refine ⟨c, hc, List.forall_mem_cons.mpr ⟨⟨?_, by decide, ?_⟩,
    List.forall_mem_singleton.mpr ⟨?_, by decide, ?_⟩⟩⟩
  · exact Datum.readAt_zero_of_read (by cbv)
  · rintro ⟨candidates, hcompletion, -⟩
    exact hquote.complete?_ne _ _ _ candidates hcompletion
  · exact Datum.readAt_zero_of_read (by cbv)
  · rintro ⟨candidates, hcompletion, -⟩
    exact htab.complete?_ne _ _ _ candidates hcompletion

end Completion

end LexicalLisp
