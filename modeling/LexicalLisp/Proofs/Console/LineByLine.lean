import LexicalLisp.Console.Dialogue
import LexicalLisp.Proofs.Reading.Continuation

/-!
# Line by line and all at once

A dialogue cuts a text at its line ends, keeps what cannot be read yet, and runs the rest chunk by
chunk. Nothing of this can be seen: if the whole text can be read, the dialogue puts out what a run
of the whole text puts out and leaves the same store (`feedAll_eq_runText`).

The reason is that a chunk is only run when it can be read to its end, and that it ends in a line
feed. So no datum crosses the cut, and what is read behind it is what is read there in the whole
(`Datum.items_append_newline`). Between two lines the pending text is therefore empty or broken
off (`Dialogue.Waiting`).
-/

namespace LexicalLisp.Console

/-! ## Runs one after another -/

/-- One run and then another. -/
def Batch.append (first second : Batch) : Batch where
  success := first.success && second.success
  transcript := first.transcript ++ second.transcript
  store := second.store

section Runs

variable {depth : Nat} {o : Options} {session : Session}

theorem runItems_append (hkeep : o.keepGoing = true) (items rest : List (Except ReadError Datum))
    (store : Store) :
    runItems depth o session (items ++ rest) store =
      (runItems depth o session items store).bind fun first ↦
        (runItems depth o session rest first.store).map first.append := by
  induction items generalizing store with
  | nil =>
    rw [List.nil_append, runItems, Option.bind_some]
    cases runItems depth o session rest store <;> rfl
  | cons item items ih =>
    rw [List.cons_append, runItems, runItems]
    cases session.evalItem depth item store with
    | none => rfl
    | some run =>
      simp only [hkeep, Bool.or_true, if_true, ih]
      cases runItems depth o session items run.store with
      | none => rfl
      | some first =>
        rw [Option.bind_some, Option.bind_some]
        cases runItems depth o session rest first.store with
        | none => rfl
        | some second =>
          simp only [Option.map_some, Batch.append, Bool.and_assoc, List.append_assoc]

end Runs

/-- Lines as a text, a line feed behind each. -/
def textOfLines (lines : List (List Char)) : List Char := lines.flatMap (· ++ ['\n'])

theorem textOfLines_cons (line : List Char) (lines : List (List Char)) :
    textOfLines (line :: lines) = line ++ '\n' :: textOfLines lines := by
  rw [textOfLines, List.flatMap_cons, List.append_assoc, List.singleton_append, textOfLines]

namespace Dialogue

/-! ## What is pending between two lines -/

/-- Nothing is pending, or something that breaks off. -/
def Waiting (pending : List Char) : Prop :=
  pending = [] ∨ ∃ e, Datum.readAll pending = .error e ∧ e.isIncomplete = true

theorem needsMore_iff {text : List Char} :
    needsMore text = true ↔ ∃ e, Datum.readAll text = .error e ∧ e.isIncomplete = true := by
  rw [needsMore]
  cases Datum.readAll text with
  | ok ds => exact ⟨nofun, nofun⟩
  | error e =>
    constructor
    · exact fun he ↦ ⟨e, rfl, he⟩
    · rintro ⟨_, heq, he⟩
      cases heq
      exact he

theorem waiting_of_collect {depth : Nat} {o : Options} {d d' : Dialogue} {text : List Char}
    {transcript : List Output} (h : d.collect depth o text = some ⟨transcript, some d'⟩) :
    Waiting d'.pending := by
  rw [collect] at h
  split at h
  next hmore =>
    cases h
    exact .inr (needsMore_iff.mp hmore)
  next =>
    cases hrun : runText depth { o with keepGoing := true } d.session text d.store with
    | none =>
      rw [hrun] at h
      cases h
    | some batch =>
      rw [hrun] at h
      cases h
      exact .inl rfl

theorem pending_of_obey {o : Options} {d d' : Dialogue} {request : Request}
    {transcript : List Output} (h : d.obey o request = some ⟨transcript, some d'⟩) :
    d'.pending = d.pending := by
  cases request with
  | quit => cases h
  | listing =>
    cases h
    rfl
  | reset =>
    rw [obey] at h
    split at h
    next =>
      cases h
      rfl
    next => cases h

theorem waiting_of_feed {depth : Nat} {o : Options} {d d' : Dialogue} {line : List Char}
    {transcript : List Output} (hd : Waiting d.pending)
    (h : d.feed depth o line = some ⟨transcript, some d'⟩) : Waiting d'.pending := by
  rw [feed] at h
  split at h
  next => exact pending_of_obey h ▸ hd
  next => exact waiting_of_collect h

theorem waiting_of_feedAll {depth : Nat} {o : Options} {lines : List (List Char)}
    {d d' : Dialogue} {transcript : List Output} (hd : Waiting d.pending)
    (h : d.feedAll depth o lines = some ⟨transcript, some d'⟩) : Waiting d'.pending := by
  induction lines generalizing d transcript with
  | nil =>
    cases h
    exact hd
  | cons line lines ih =>
    rw [feedAll] at h
    split at h
    next => cases h
    next => cases h
    next first d₁ hfeed =>
      cases hrest : feedAll depth o d₁ lines with
      | none =>
        rw [hrest] at h
        cases h
      | some answer =>
        rw [hrest] at h
        obtain ⟨last, d₂⟩ := answer
        cases h
        exact ih (waiting_of_feed hd hfeed) hrest

/-! ## The cut -/

/-- A chunk that can be read to its end may be run before the lines behind it. -/
theorem runText_append_textOfLines {depth : Nat} {o : Options} {session : Session}
    (hkeep : o.keepGoing = true) {chunk more : List Char} {ds : List Datum}
    (hread : Datum.readAll (chunk ++ ['\n']) = .ok ds) (store : Store) :
    runText depth o session (chunk ++ '\n' :: more) store =
      (runText depth o session (chunk ++ ['\n']) store).bind fun first ↦
        (runText depth o session more first.store).map first.append := by
  have hchunk : Datum.readAll chunk = .ok ds := by rwa [Datum.readAll_append_newline_nil] at hread
  have hnil : Datum.items (chunk ++ ['\n']) = Datum.items chunk := by
    rw [Datum.items_append_newline hchunk,
      Datum.items_of_layout (show skipLayout [] = [] from rfl), List.append_nil]
  rw [runText, Datum.items_append_newline hchunk, runItems_append hkeep, runText, hnil]
  rfl

/-- In a readable text a chunk that is not broken off is readable, and so is what follows it. -/
theorem readAll_of_not_needsMore {chunk more : List Char} {ds : List Datum}
    (hread : Datum.readAll (chunk ++ '\n' :: more) = .ok ds)
    (hmore : ¬needsMore (chunk ++ ['\n']) = true) :
    ∃ ds' ds'', Datum.readAll (chunk ++ ['\n']) = .ok ds' ∧ Datum.readAll more = .ok ds'' := by
  cases hchunk : Datum.readAll (chunk ++ ['\n']) with
  | error e =>
    have he : e.isIncomplete = false := by
      rw [← Bool.not_eq_true]
      exact fun he ↦ hmore (needsMore_iff.mpr ⟨e, hchunk, he⟩)
    obtain ⟨e', herror, -⟩ := Datum.readAll_append_error hchunk he more
    rw [List.append_assoc, List.singleton_append, hread] at herror
    cases herror
  | ok ds' =>
    rw [Datum.readAll_append_newline_nil] at hchunk
    rw [Datum.readAll_append_newline hchunk] at hread
    cases hrest : Datum.readAll more with
    | error e =>
      rw [hrest] at hread
      cases hread
    | ok ds'' => exact ⟨ds', ds'', rfl, rfl⟩

theorem feedAll_cons {depth : Nat} {o : Options} {d d' : Dialogue} {line : List Char}
    {transcript : List Output} (h : d.feed depth o line = some ⟨transcript, some d'⟩)
    (lines : List (List Char)) :
    d.feedAll depth o (line :: lines) =
      (d'.feedAll depth o lines).map fun answer ↦
        ⟨transcript ++ answer.transcript, answer.dialogue⟩ := by
  rw [feedAll, h]
  cases hrest : d'.feedAll depth o lines <;> simp only [hrest] <;> rfl

theorem feedAll_eq_runText_pending {depth : Nat} {o : Options} {session : Session}
    {lines : List (List Char)} (hrequest : ∀ line ∈ lines, Request.ofLine? line = none)
    {pending : List Char} (hpending : Waiting pending) {ds : List Datum}
    (hread : Datum.readAll (pending ++ textOfLines lines) = .ok ds) (store : Store) :
    feedAll depth o ⟨session, store, pending⟩ lines =
      (runText depth { o with keepGoing := true } session (pending ++ textOfLines lines)
        store).map fun batch ↦ ⟨batch.transcript, some ⟨session, batch.store, []⟩⟩ := by
  induction lines generalizing pending ds store with
  | nil =>
    rw [textOfLines, List.flatMap_nil, List.append_nil] at hread ⊢
    rcases hpending with rfl | ⟨e, herror, -⟩
    · rw [feedAll, runText, Datum.items_of_layout rfl, runItems]
      rfl
    · cases herror.symm.trans hread
  | cons line lines ih =>
    have hline : Request.ofLine? line = none := hrequest line List.mem_cons_self
    have hlines : ∀ l ∈ lines, Request.ofLine? l = none :=
      fun l hl ↦ hrequest l (List.mem_cons_of_mem line hl)
    have hfeed : feed depth o ⟨session, store, pending⟩ line =
        collect depth o ⟨session, store, pending⟩ (pending ++ line ++ ['\n']) := by
      rw [feed, hline, ite_self]
    rw [textOfLines_cons, ← List.append_assoc] at hread ⊢
    by_cases hmore : needsMore (pending ++ line ++ ['\n']) = true
    · -- the line only makes the pending text longer
      have hassoc : pending ++ line ++ '\n' :: textOfLines lines =
          pending ++ line ++ ['\n'] ++ textOfLines lines := by
        rw [List.append_assoc (pending ++ line), List.singleton_append]
      rw [collect, if_pos hmore] at hfeed
      rw [hassoc] at hread ⊢
      rw [feedAll_cons hfeed, ih hlines (.inr (needsMore_iff.mp hmore)) hread, Option.map_map]
      rfl
    · obtain ⟨ds', ds'', hchunk, hrest⟩ := readAll_of_not_needsMore hread hmore
      rw [collect, if_neg hmore] at hfeed
      rw [runText_append_textOfLines rfl hchunk]
      cases hrun : runText depth { o with keepGoing := true } session (pending ++ line ++ ['\n'])
        store with
      | none =>
        rw [feedAll, hfeed, hrun]
        rfl
      | some first =>
        rw [hrun] at hfeed
        rw [feedAll_cons hfeed, ih hlines (.inl rfl) hrest first.store, Option.bind_some,
          List.nil_append, Option.map_map, Option.map_map]
        rfl

/-- **Lines and text agree.** A text that can be read and none of whose lines is a request is run
line by line as it is run all at once: the two put out the same, end in the same store, or both need
more depth. And whatever lines come, between two of them nothing is pending, or something that
breaks off. -/
theorem feedAll_eq_runText (depth : Nat) (o : Options) (session : Session) (store : Store)
    (lines : List (List Char)) :
    ((∃ ds, Datum.readAll (textOfLines lines) = .ok ds) →
        (∀ line ∈ lines, Request.ofLine? line = none) →
        feedAll depth o ⟨session, store, []⟩ lines =
          (runText depth { o with keepGoing := true } session (textOfLines lines) store).map
            fun batch ↦ ⟨batch.transcript, some ⟨session, batch.store, []⟩⟩) ∧
      ∀ transcript d, feedAll depth o ⟨session, store, []⟩ lines = some ⟨transcript, some d⟩ →
        d.pending = [] ∨ ∃ e, Datum.readAll d.pending = .error e ∧ e.isIncomplete = true := by
  refine ⟨?_, fun transcript d h ↦ waiting_of_feedAll (.inl rfl) h⟩
  rintro ⟨ds, hread⟩ hrequest
  exact feedAll_eq_runText_pending hrequest (.inl rfl) hread store

/-- A definition typed over two lines, a comment and the next form behind its parts. -/
theorem feedAll_definition_on_two_lines :
    (∃ ds, Datum.readAll (textOfLines ["(define x ; one".toList, "#t) x".toList]) = .ok ds) ∧
      (∀ line ∈ ["(define x ; one".toList, "#t) x".toList], Request.ofLine? line = none) ∧
      feedAll 3 ⟨false, true, false, false, 2⟩ (start .full)
          ["(define x ; one".toList, "#t) x".toList] =
        (runText 3 ⟨false, true, false, true, 2⟩ (start .full).session
          (textOfLines ["(define x ; one".toList, "#t) x".toList]) (start .full).store).map
            fun batch ↦ ⟨batch.transcript, some ⟨(start .full).session, batch.store, []⟩⟩ := by
  have hread : ∃ ds, Datum.readAll
      (textOfLines ["(define x ; one".toList, "#t) x".toList]) = .ok ds := by
    rw [Datum.readAll_of_read (show Datum.read _ = .ok (.list [.symbol "define", .symbol "x",
        .bool true], " x\n".toList) by cbv),
      Datum.readAll_of_read (show Datum.read _ = .ok (.symbol "x", "\n".toList) by cbv),
      Datum.readAll_of_layout (by decide)]
    exact ⟨_, rfl⟩
  have hrequest : ∀ line ∈ ["(define x ; one".toList, "#t) x".toList],
      Request.ofLine? line = none := by decide
  exact ⟨hread, hrequest, (feedAll_eq_runText 3 ⟨false, true, false, false, 2⟩
    (start .full).session (start .full).store _).1 hread hrequest⟩

end Dialogue

end LexicalLisp.Console
