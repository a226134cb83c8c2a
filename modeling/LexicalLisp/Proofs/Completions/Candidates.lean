import LexicalLisp.Completion
import LexicalLisp.Proofs.Evaluation.Scope
import LexicalLisp.Proofs.Frames.Listings

/-!
# The candidates of a completion

The names that can be used come from three sources that overlap: a frame may bind a name that one
of its ancestors binds too, and a bound name may be spelled like a keyword or an operator. They are
listed one source after another, sorted, and then equal neighbours are erased. Sorting brings all
repetitions of a name together, so that what is left ascends strictly.

A strictly ascending list is determined by its members. Hence the candidates depend on nothing but
which names are listed (`Completion.select_congr`). They would be the same if tables and frames
listed what they hold in another order (`Completion.Enumeration`), and they are the same after
bindings that were made in another order.
-/

namespace LexicalLisp

/-! ## Erasing repetitions -/

section Repetitions

variable {α : Type} [BEq α]

private theorem eraseReps_loop (a : α) (l kept : List α) :
    List.eraseRepsBy.loop (· == ·) a l kept = kept.reverse ++ (a :: l).eraseReps := by
  induction l generalizing a kept with
  | nil => exact List.reverse_cons
  | cons b l ih =>
    change _ = kept.reverse ++ List.eraseRepsBy.loop (· == ·) a (b :: l) []
    rw [List.eraseRepsBy.loop, List.eraseRepsBy.loop]
    cases a == b with
    | true => exact ih a kept
    | false => rw [ih b (a :: kept), ih b [a], List.reverse_cons, List.append_assoc]; rfl

theorem eraseReps_cons_cons (a b : α) (l : List α) :
    (a :: b :: l).eraseReps =
      if a == b then (a :: l).eraseReps else a :: (b :: l).eraseReps := by
  change List.eraseRepsBy.loop (· == ·) a (b :: l) [] = _
  rw [List.eraseRepsBy.loop]
  cases a == b with
  | true => exact eraseReps_loop a l []
  | false => exact eraseReps_loop b l [a]

variable [LawfulBEq α]

theorem mem_eraseReps {x : α} {l : List α} : x ∈ l.eraseReps ↔ x ∈ l := by
  induction l with
  | nil => exact Iff.rfl
  | cons a l ih =>
    cases l with
    | nil => exact Iff.rfl
    | cons b l =>
      rw [eraseReps_cons_cons]
      split
      · next hab =>
        rw [eq_of_beq hab, ih]
        simp only [List.mem_cons, or_self_left]
      · rw [List.mem_cons, ih, ← List.mem_cons]

/-- In an ascending list equal members are neighbours, and erasing repetitions leaves each once. -/
theorem pairwise_lt_eraseReps [PartialOrder α] {l : List α} (h : l.Pairwise (· ≤ ·)) :
    l.eraseReps.Pairwise (· < ·) := by
  induction l with
  | nil => exact .nil
  | cons a l ih =>
    cases l with
    | nil => exact List.pairwise_singleton _ a
    | cons b l =>
      obtain ⟨ha, hrest⟩ := List.pairwise_cons.mp h
      rw [eraseReps_cons_cons]
      split
      · next hab =>
        rw [eq_of_beq hab]
        exact ih hrest
      · next hab =>
        refine List.pairwise_cons.mpr ⟨fun x hx ↦ ?_, ih hrest⟩
        have hne : a ≠ b := ne_of_beq_false (by simpa using hab)
        have hlt : a < b := lt_of_le_of_ne (ha b List.mem_cons_self) hne
        rcases List.mem_cons.mp (mem_eraseReps.mp hx) with rfl | hx
        · exact hlt
        · exact lt_of_lt_of_le hlt ((List.pairwise_cons.mp hrest).1 x hx)

end Repetitions

/-! ## Bindings in another order -/

namespace Store

variable {origin s s' : Store} {log log' : List Change} {f : FrameId} {name : String}

theorem Path.isSome_local?_iff (h : origin.Path log s) : (s.local? f name).isSome ↔
    (∃ c ∈ log, (c.valueFor? f name).isSome) ∨ (origin.local? f name).isSome := by
  rw [isSome_local?, h.get?_eq, Option.isSome_or, Option.isSome_map, Bool.or_eq_true, lastBound,
    List.findSome?_isSome_iff, isSome_local?]
  simp only [List.mem_reverse]

/-- The same changes in another order bind the same names, if they leave the same links. -/
theorem Path.resolves_iff_of_perm (h : origin.Path log s) (h' : origin.Path log' s')
    (hlog : log.Perm log') (hparent : ∀ g, s'.parent? g = s.parent? g) :
    s'.Resolves f name ↔ s.Resolves f name := by
  rw [resolves_iff, resolves_iff, chain_congr fun g _ ↦ hparent g]
  simp only [h.isSome_local?_iff, h'.isSome_local?_iff, hlog.mem_iff]

end Store

/-! ## Selecting from a listing -/

namespace Completion

variable {table : OperatorTable} {s s' : Store} {f f' : FrameId} {word : List Char} {name : String}

/-- What is selected from a listing for a word: the names that begin with it, ascending and each
once. -/
def select (word : List Char) (listing : List String) : List String :=
  ((listing.filter fun name ↦ word.isPrefixOf name.toList).mergeSort
    fun a b ↦ decide (a ≤ b)).eraseReps

theorem mem_select {listing : List String} :
    name ∈ select word listing ↔ word <+: name.toList ∧ name ∈ listing := by
  rw [select, mem_eraseReps, List.mem_mergeSort, List.mem_filter, List.isPrefixOf_iff_prefix,
    and_comm]

theorem pairwise_select (word : List Char) (listing : List String) :
    (select word listing).Pairwise (· < ·) := by
  have htrans : ∀ a b c : String, decide (a ≤ b) = true → decide (b ≤ c) = true →
      decide (a ≤ c) = true := by
    simp only [decide_eq_true_eq]
    exact fun _ _ _ ↦ le_trans
  have htotal : ∀ a b : String, (decide (a ≤ b) || decide (b ≤ a)) = true := by
    simp only [Bool.or_eq_true, decide_eq_true_eq]
    exact le_total
  exact pairwise_lt_eraseReps ((List.pairwise_mergeSort htrans htotal _).imp of_decide_eq_true)

theorem select_congr {listing listing' : List String}
    (h : ∀ name, name ∈ listing ↔ name ∈ listing') : select word listing = select word listing' :=
  (pairwise_select word listing).eq_of_mem_iff (pairwise_select word listing') fun name ↦ by
    rw [mem_select, mem_select, h]

/-! ## The usable names -/

theorem mem_keywords_iff : name ∈ Keyword.all.map Keyword.word ↔ ∃ k : Keyword, k.word = name := by
  rw [List.mem_map]
  constructor
  · rintro ⟨k, -, rfl⟩
    exact ⟨k, rfl⟩
  · rintro ⟨k, rfl⟩
    exact ⟨k, Keyword.mem_all k, rfl⟩

theorem mem_names_iff : name ∈ names table s f ↔
    (∃ k : Keyword, k.word = name) ∨ (∃ op ∈ table, op.symbol = name) ∨ s.Resolves f name := by
  rw [names, List.append_assoc, List.mem_append, List.mem_append, mem_keywords_iff,
    OperatorTable.symbols, List.mem_map, Store.mem_keys_iff]
  rfl

theorem candidatesFor_eq_select :
    candidatesFor table s f word = select word (names table s f) := rfl

theorem mem_candidatesFor_iff : name ∈ candidatesFor table s f word ↔ word <+: name.toList ∧
    ((∃ k : Keyword, k.word = name) ∨ (∃ op ∈ table, op.symbol = name) ∨ s.Resolves f name) := by
  rw [candidatesFor_eq_select, mem_select, mem_names_iff]

theorem candidatesFor_congr (h : ∀ name, s.Resolves f name ↔ s'.Resolves f' name) :
    candidatesFor table s f word = candidatesFor table s' f' word :=
  select_congr fun name ↦ by rw [mem_names_iff, mem_names_iff, h]

/-- An order in which the table of operators and the frames may list what they hold. -/
structure Enumeration (table : OperatorTable) (s : Store) where
  /-- The symbols of the operators. -/
  symbols : List String
  /-- The names that a frame binds. -/
  bound : FrameId → List String
  /-- All symbols are listed, and no others. -/
  symbols_perm : symbols.Perm table.symbols
  /-- All names of the frame are listed, and no others. -/
  bound_perm : ∀ g, (bound g).Perm (s.bindings g).names

/-- The usable names in the order in which they are listed then. -/
def Enumeration.names (e : Enumeration table s) (f : FrameId) : List String :=
  Keyword.all.map Keyword.word ++ e.symbols ++ (s.chain f).flatMap e.bound

theorem Enumeration.mem_names_iff (e : Enumeration table s) :
    name ∈ e.names f ↔ name ∈ Completion.names table s f := by
  rw [Enumeration.names, Completion.names, List.mem_append, List.mem_append, List.mem_append,
    List.mem_append, e.symbols_perm.mem_iff, Store.keys, List.mem_mergeSort]
  simp only [List.mem_flatMap, (e.bound_perm _).mem_iff]

/-- **Candidates.** They ascend strictly by their bytes, and they are the names that begin with the
word and are a keyword, the symbol of an operator in force, or bound in a frame of the chain, each
once. Listing the tables in another order gives the same candidates, and so does making the same
changes of the store in another order, as long as they leave the same links. -/
theorem candidates_are_the_usable_names (table : OperatorTable) (s : Store) (f : FrameId)
    (word : List Char) :
    (candidatesFor table s f word).Pairwise (fun a b ↦ Text.bytes a < Text.bytes b) ∧
    (∀ name, name ∈ candidatesFor table s f word ↔ word <+: name.toList ∧
      ((∃ k : Keyword, k.word = name) ∨ (∃ op ∈ table, op.symbol = name) ∨
        ∃ g ∈ s.chain f, (s.local? g name).isSome = true)) ∧
    (∀ name ∈ candidatesFor table s f word, (candidatesFor table s f word).count name = 1) ∧
    (∀ e : Enumeration table s, select word (e.names f) = candidatesFor table s f word) ∧
    ∀ (origin s' : Store) (log log' : List Change), origin.Path log s → origin.Path log' s' →
      log.Perm log' → (∀ g, s'.parent? g = s.parent? g) →
      candidatesFor table s' f word = candidatesFor table s f word := by
  have hsorted : (candidatesFor table s f word).Pairwise (· < ·) := pairwise_select word _
  refine ⟨hsorted.imp Text.bytes_lt_bytes_iff.mpr, fun name ↦ ?_, fun name hname ↦ ?_, fun e ↦ ?_,
    fun origin s' log log' h h' hlog hparent ↦ ?_⟩
  · rw [mem_candidatesFor_iff, Store.resolves_iff]
  · exact List.count_eq_one_of_mem (hsorted.imp ne_of_lt) hname
  · exact select_congr fun name ↦ e.mem_names_iff
  · exact candidatesFor_congr fun name ↦ h.resolves_iff_of_perm h' hlog hparent

/-- A name that both frames bind is offered once, and so is a keyword that the child binds as well,
in whatever order the three bindings are made. -/
theorem candidates_are_the_usable_names_in_child :
    let origin := ((Store.empty.newFrame none).2.newFrame (some 0)).2
    let s := ((origin.bind 0 "deep" (.bool true)).bind 1 "deep" (.bool false)).bind 1 "define"
      (.bool true)
    let s' := ((origin.bind 1 "define" (.bool true)).bind 0 "deep" (.bool true)).bind 1 "deep"
      (.bool false)
    let candidates := candidatesFor .full s 1 "de".toList
    candidates.count "deep" = 1 ∧ candidates.count "define" = 1 ∧ "if" ∉ candidates ∧
      candidatesFor .full s' 1 "de".toList = candidates := by
  intro origin s s' candidates
  obtain ⟨-, hmem, honce, -, hsame⟩ := candidates_are_the_usable_names .full s 1 "de".toList
  have hdeep : "deep" ∈ candidates :=
    (hmem "deep").mpr ⟨by decide, .inr (.inr ⟨1, s.mem_chain_self 1, by decide⟩)⟩
  have hdefine : "define" ∈ candidates := (hmem "define").mpr ⟨by decide, .inl ⟨.define, rfl⟩⟩
  refine ⟨honce _ hdeep, honce _ hdefine, fun h ↦ ?_, ?_⟩
  · exact absurd ((hmem "if").mp h).1 (by decide)
  · have hpath : origin.Path [.bind 0 "deep" (.bool true), .bind 1 "deep" (.bool false),
        .bind 1 "define" (.bool true)] s :=
      .bind (.bind (.bind .nil (by decide) _ _) (by decide) _ _) (by decide) _ _
    have hpath' : origin.Path [.bind 1 "define" (.bool true), .bind 0 "deep" (.bool true),
        .bind 1 "deep" (.bool false)] s' :=
      .bind (.bind (.bind .nil (by decide) _ _) (by decide) _ _) (by decide) _ _
    refine hsame origin s' _ _ hpath hpath' ?_ fun g ↦ ?_
    · exact List.perm_append_singleton _ [_, _]
    · rw [Store.parent?_bind, Store.parent?_bind, Store.parent?_bind, Store.parent?_bind,
        Store.parent?_bind, Store.parent?_bind]

end Completion

end LexicalLisp
